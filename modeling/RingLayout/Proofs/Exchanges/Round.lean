import RingLayout.Proofs.Circles
import RingLayout.Proofs.Exchanges.Ring

/-! # A round of exchanges

The rings take their turns in a round one after the other. Since an exchange is local to its ring,
every ring is found as the round began, and the pulls that the choice of candidates depends on are
cleared at the end only. So what a round does can be said ring by ring.
-/

namespace RingLayout.Drawing

variable {K : Type} [Scalar K] {members : Nat → List Nat} {d e f : Drawing K}
  {m : ExchangeMemory} {c : Nat} {done : List (Candidate K)}

/-! ## A ring among others -/

theorem SameOn.angles_eq (h : SameOn c d e) (hd : d.skeleton.Sound members) :
    e.angles c = d.angles c := by
  rw [angles, angles, h.ring_eq]
  refine List.map_congr_left fun v hv => ?_
  rw [angleOf, angleOf, seatOf, seatOf, h.body_eq v (ring?_of_mem_order hd hv)]

theorem SameOn.isCandidate_iff (h : SameOn c d e) (hd : d.skeleton.Sound members)
    {p : Candidate K} : IsCandidate e m c p ↔ IsCandidate d m c p := by
  by_cases hstands : p.StandsIn (d.ring c).order
  · have hu : e.body p.u = d.body p.u :=
      h.body_eq _ (ring?_of_mem_order hd (List.mem_of_getElem? hstands.behind))
    have hv : e.body p.v = d.body p.v :=
      h.body_eq _ (ring?_of_mem_order hd (List.mem_of_getElem? hstands.ahead))
    simp only [Drawing.isCandidate_iff, isOutNode, h.ring_eq, hu, hv]
  · refine iff_of_false (fun he => hstands ?_) fun hd => hstands hd.toStandsIn
    rw [← h.ring_eq]
    exact he.toStandsIn

/-- A ring chooses as it would if its turn came first. -/
theorem Chosen.of_sameOn (hchosen : Chosen e m c done) (h : SameOn c d e)
    (hlinks : e.links = d.links) (hd : d.skeleton.Sound members)
    (he : e.skeleton.Sound members) : Chosen d m c done := by
  have hcandidate : ∀ p, IsCandidate e m c p ↔ IsCandidate d m c p :=
    fun p => h.isCandidate_iff hd
  have hharmless : ∀ i, Harmless e c i ↔ Harmless d c i := fun i => by
    apply harmless_congr hd.seated he.seated
    · exact congrArg Ring.shape h.ring_eq
    · exact funext fun l => congrArg Link.shape (link_of_links hlinks l)
  have hpreferred : ∀ p, Preferred e m c p ↔ Preferred d m c p := by
    intro p
    rw [preferred_iff, preferred_iff, hcandidate, hharmless]
  obtain ⟨hall, hshort, hbest, hothers, hidle⟩ := hchosen
  simp only [h.ring_eq, hcandidate, hpreferred, hharmless] at hall hshort hbest hothers hidle
  exact ⟨hall, hshort, hbest, hothers, hidle⟩

/-- A ring that has had its turn. The slots of the ring keep their angles. -/
structure Settled (d e : Drawing K) (m : ExchangeMemory) (c : Nat) (done : List (Candidate K)) :
    Prop where
  chosen : Chosen d m c done
  order : CyclicOrder.Exchanged (d.ring c).order done (e.ring c).order
  angles_eq : e.angles c = d.angles c
  sameOn : (d.ring c).order.length < 3 → SameOn c d e

/-- Other rings have had their turns before. -/
theorem Settled.of_sameOn (hsettled : Settled e f m c done) (h : SameOn c d e)
    (hlinks : e.links = d.links) (hd : d.skeleton.Sound members)
    (he : e.skeleton.Sound members) : Settled d f m c done where
  chosen := hsettled.chosen.of_sameOn h hlinks hd he
  order := h.ring_eq ▸ hsettled.order
  angles_eq := hsettled.angles_eq.trans (h.angles_eq hd)
  sameOn hshort := h.trans (hsettled.sameOn (h.ring_eq.symm ▸ hshort))

/-- Other rings have their turns after. -/
theorem Settled.sameOn_trans (hsettled : Settled d e m c done) (h : SameOn c e f)
    (he : e.skeleton.Sound members) : Settled d f m c done where
  chosen := hsettled.chosen
  order := h.ring_eq ▸ hsettled.order
  angles_eq := (h.angles_eq he).trans hsettled.angles_eq
  sameOn hshort := (hsettled.sameOn hshort).trans h

/-- After the turns of some rings, what each of them has chosen is exchanged on it, and nothing else
has changed. -/
theorem exists_settled [OrderedScalar K] (m : ExchangeMemory) (rings : List Nat)
    (hrings : rings.Nodup) (hd : d.skeleton.Sound members) (pairs : List (Nat × Nat)) :
    ∃ done : Nat → List (Candidate K),
      (rings.foldl (exchangeOnRing m) (pairs, d)).1 =
        pairs ++ rings.flatMap (fun c => (done c).map Candidate.pair) ∧
      (rings.foldl (exchangeOnRing m) (pairs, d)).2.skeleton.Sound members ∧
      ∀ c, (c ∈ rings → Settled d (rings.foldl (exchangeOnRing m) (pairs, d)).2 m c (done c)) ∧
        (c ∉ rings → SameOn c d (rings.foldl (exchangeOnRing m) (pairs, d)).2) := by
  induction rings generalizing d pairs with
  | nil =>
      exact ⟨fun _ => [], (List.append_nil pairs).symm, hd,
        fun c => ⟨fun hc => absurd hc List.not_mem_nil, fun _ => .refl c d⟩⟩
  | cons b rest ih =>
      obtain ⟨hb, hrest⟩ := List.nodup_cons.mp hrings
      obtain ⟨first, hchosen, hpairs, hswapped, hshort⟩ := exists_exchangeOnRing hd m pairs b
      obtain ⟨pairs', e, hstep⟩ : ∃ pairs' e, exchangeOnRing m (pairs, d) b = (pairs', e) :=
        ⟨_, _, rfl⟩
      rw [hstep] at hpairs hswapped hshort
      dsimp only at hpairs hswapped hshort
      obtain ⟨done, hmore, hsound, hdone⟩ := ih hrest hswapped.sound pairs'
      rw [List.foldl_cons, hstep]
      refine ⟨Function.update done b first, ?_, hsound, fun c => ?_⟩
      · have hothers : rest.flatMap (fun c => (Function.update done b first c).map Candidate.pair) =
            rest.flatMap fun c => (done c).map Candidate.pair := by
          refine List.flatMap_congr fun c hc => ?_
          rw [Function.update_of_ne]
          rintro rfl
          exact hb hc
        rw [hmore, hpairs, List.flatMap_cons, Function.update_self, List.append_assoc, hothers]
      · by_cases hcb : c = b
        · subst hcb
          refine ⟨fun _ => ?_, fun hc => absurd List.mem_cons_self hc⟩
          rw [Function.update_self]
          refine Settled.sameOn_trans ?_ ((hdone c).2 hb) hswapped.sound
          exact ⟨hchosen, hswapped.order, hswapped.angles_eq, fun h => hshort h ▸ .refl c d⟩
        · have hsame : SameOn c d e := hswapped.isLocal.sameOn hcb
          rw [Function.update_of_ne hcb]
          constructor
          · intro hc
            have hturn := (hdone c).1 ((List.mem_cons.mp hc).resolve_left hcb)
            exact hturn.of_sameOn hsame hswapped.links_eq hd hswapped.sound
          · exact fun hc => hsame.trans ((hdone c).2 fun hmem => hc (List.mem_cons_of_mem b hmem))

/-! ## Clearing the pulls -/

theorem rings_clearPulls (d : Drawing K) : d.clearPulls.rings = d.rings :=
  foldl_eq_of_step_eq Drawing.rings (fun _ _ => by rfl) _ d

theorem seatOf_clearPulls (hd : d.skeleton.Seated members) (v : Nat) :
    d.clearPulls.seatOf v = d.seatOf v := by
  rw [seatOf, seatOf, body_clearPulls hd]
  simp only [Body.unpulled, Body.seat?]
  cases (d.body v).role <;> rfl

theorem SameOn.clearPulls (h : SameOn c d e) (hd : d.skeleton.Seated members)
    (he : e.skeleton.Seated members) : SameOn c d.clearPulls e.clearPulls where
  ring_eq := by
    rw [ring_of_rings e.rings_clearPulls, ring_of_rings d.rings_clearPulls, h.ring_eq]
  body_eq v hv := by
    rw [body_clearPulls hd] at hv
    have hring : (d.body v).role.ring? = some c := by
      rw [← hv, Body.unpulled]
      cases (d.body v).role <;> rfl
    rw [body_clearPulls hd, body_clearPulls he, h.body_eq v hring]

/-- A slot of a ring has the angle and the index that it had, whoever is in it. -/
theorem Settled.seatOf_eq (h : Settled d e m c done) (hd : d.skeleton.Sound members)
    (he : e.skeleton.Sound members) {k u v : Nat} (hu : (d.ring c).order[k]? = some u)
    (hv : (e.ring c).order[k]? = some v) : e.seatOf v = d.seatOf u := by
  refine Prod.ext ?_ ?_
  · have hangle : (e.angles c)[k]? = (d.angles c)[k]? := by rw [h.angles_eq]
    rw [angles, angles, List.getElem?_map, List.getElem?_map, hu, hv] at hangle
    exact Option.some.inj hangle
  · have hindex : (d.seatOf u).2 = k := d.seatOf_eq ((hd.seated.seat_iff u c k).mpr hu)
    rw [hindex]
    exact e.seatOf_eq ((he.seated.seat_iff v c k).mpr hv)

/-! ## All rings -/

/-- What a round does on one ring: it exchanges the chosen candidates, and every slot keeps its
index and its angle. -/
structure RoundOn (d d' : Drawing K) (m : ExchangeMemory) (c : Nat) (done : List (Candidate K)) :
    Prop where
  chosen : Chosen d m c done
  order : CyclicOrder.Exchanged (d.ring c).order done (d'.ring c).order
  seatOf_eq : ∀ k u v : Nat, (d.ring c).order[k]? = some u → (d'.ring c).order[k]? = some v →
    d'.seatOf v = d.seatOf u
  /-- A ring of fewer than three members is left alone, but for its pulls. -/
  sameOn : (d.ring c).order.length < 3 → SameOn c d.clearPulls d'

/-- What a round of exchanges does, ring by ring. -/
structure Round (d : Drawing K) (m : ExchangeMemory) (done : Nat → List (Candidate K)) :
    Prop where
  onRing : ∀ c < d.rings.size, RoundOn d (d.performExchanges m).2.1 m c (done c)
  pairs_eq : d.exchangedPairs m =
    (List.range d.rings.size).flatMap fun c => (done c).map Candidate.pair
  count_eq : (d.performExchanges m).1 =
    ((List.range d.rings.size).map fun c => (done c).length).sum

variable [OrderedScalar K]

theorem exists_round (hd : d.skeleton.Sound members) (m : ExchangeMemory) :
    ∃ done, Round d m done := by
  obtain ⟨done, hpairs, hsound, hdone⟩ := exists_settled m d.ringNumbers List.nodup_range hd []
  let e := (d.ringNumbers.foldl (exchangeOnRing m) ([], d)).2
  have hround : (d.performExchanges m).2.1 = e.clearPulls := rfl
  refine ⟨done, ?_, hpairs, ?_⟩
  · intro c hc
    have hsettled : Settled d e m c (done c) := (hdone c).1 (List.mem_range.mpr hc)
    rw [hround]
    constructor
    case chosen => exact hsettled.chosen
    case order =>
      rw [ring_of_rings e.rings_clearPulls]
      exact hsettled.order
    case seatOf_eq =>
      intro k u v hu hv
      rw [ring_of_rings e.rings_clearPulls] at hv
      rw [seatOf_clearPulls hsound.seated]
      exact hsettled.seatOf_eq hd hsound hu hv
    case sameOn => exact fun hshort => (hsettled.sameOn hshort).clearPulls hd.seated hsound.seated
  · have hcount : (d.performExchanges m).1 = (d.exchangedPairs m).length := rfl
    rw [hcount, exchangedPairs, hpairs, List.nil_append, List.length_flatMap]
    simp only [List.length_map]
    rfl

/-- After any operations on a new drawing, a round exchanges the chosen candidates of every ring and
nothing else, whatever pulls the members have gathered and whichever exchanges the rules allow: the
skeleton of a drawing leaves both open. -/
theorem exists_round_run {g : Graph K} {o : Options K} {start : Drawing K}
    (h : build g o = .ok start) (ops : List (Operation K))
    (hd : d.skeleton = (Operation.run ops start).skeleton) (m : ExchangeMemory) :
    ∃ done, Round d m done :=
  exists_round (hd ▸ Operation.sound_run (sound_build h) ops) m

/-- Three members on a ring. The first is pulled harder than the second, which it may pass. -/
noncomputable def pulledRow : Drawing ℝ :=
  ((ofClusters row rowDraft [[0, 1, 2]]).modifySeat 0 fun s =>
    { s with swapsNext := true, pull := 6.0 }).modifySeat 1 fun s =>
      { s with swapsPrevious := true, pull := 2.0 }

theorem skeleton_pulledRow :
    pulledRow.skeleton = (ofClusters row rowDraft [[0, 1, 2]]).skeleton := by
  rw [pulledRow, skeleton_modifySeat, skeleton_modifySeat]
  · exact fun _ => rfl
  · exact fun _ => rfl

theorem isCandidate_pulledRow : IsCandidate pulledRow .empty 0 ⟨0, 0, 1, 6.0 - 2.0, false⟩ := by
  have hfirst : (0.0 : ℝ) < 6.0 := by norm_num
  have hsecond : (0.0 : ℝ) < 2.0 := by norm_num
  have hless : (2.0 : ℝ) < 6.0 := by norm_num
  exact ⟨⟨rfl, rfl⟩, ⟨_, rfl, rfl⟩, ⟨_, rfl, rfl⟩, List.not_mem_nil, Or.inl ⟨hfirst, hsecond⟩,
    hless, rfl, rfl⟩

/-- The three have no links that could cross. -/
theorem harmless_pulledRow : Harmless pulledRow 0 0 := by
  have hsound := sound_build build_row
  rw [← skeleton_pulledRow] at hsound
  have hnone : (pulledRow.ring 0).innerLinks = [] := rfl
  rw [harmless_iff hsound.seated, hnone]
  exact Nat.le_refl _

theorem exists_round_run_pulledRow :
    build row rowDraft = .ok (ofClusters row rowDraft [[0, 1, 2]]) ∧
      pulledRow.skeleton =
        (Operation.run [.rotate 0 1] (ofClusters row rowDraft [[0, 1, 2]])).skeleton ∧
      ∃ done, Round pulledRow .empty done ∧ done 0 ≠ [] := by
  have hskeleton : pulledRow.skeleton =
      (Operation.run [.rotate 0 1] (ofClusters row rowDraft [[0, 1, 2]])).skeleton :=
    skeleton_pulledRow.trans (skeleton_rotateRing _ 0 1).symm
  obtain ⟨done, hround⟩ := exists_round_run build_row [.rotate 0 1] hskeleton .empty
  refine ⟨build_row, hskeleton, done, hround, fun hnil => ?_⟩
  have hexcess : (1.0 : ℝ) < 6.0 - 2.0 := by norm_num
  have hchosen := (hround.onRing 0 Nat.zero_lt_one).chosen
  exact hchosen.idle (Nat.le_refl 3) hnil _ isCandidate_pulledRow (Or.inr hexcess)
    harmless_pulledRow

end RingLayout.Drawing
