import RingLayout.Proofs.Angles.Members
import RingLayout.Proofs.Locality.Motion
import RingLayout.Proofs.Runs
import RingLayout.Proofs.Seclusion

/-! # Relocation

Members of a ring go inside one after the other. Whoever goes has chords that cross others, and
takes at least one crossing along. Its links stay within the ring, and on the circle that it leaves
its neighbours stand next to each other.
-/

namespace RingLayout

theorem Drawing.tangledAt_iff {chords : List Chord} {i : Nat} : tangledAt chords i = true ↔
    ∃ p ∈ chords, (p.1 = i ∨ p.2 = i) ∧ ∃ q ∈ chords, p.crosses q = true := by
  simp [tangledAt]

namespace Skeleton

/-- Whoever has a chord that crosses another takes a crossing along. -/
theorem crossings_chordsIn_eraseIdx_lt {order : List Nat} (horder : order.Nodup) {i : Nat}
    {links : List LinkShape} (h : Drawing.tangledAt (chordsIn order links) i = true) :
    Chord.crossings (chordsIn (order.eraseIdx i) links) <
      Chord.crossings (chordsIn order links) := by
  obtain ⟨p, hp, hend, q, hq, hcross⟩ := Drawing.tangledAt_iff.mp h
  rw [crossings_chordsIn_eraseIdx horder]
  refine Chord.crossings_filter_lt hp hq hcross (decide_eq_false ?_)
  rintro ⟨hsource, htarget⟩
  exact hend.elim hsource htarget

theorem Seated.crossings_takeInside_lt {members : Nat → List Nat} {s : Skeleton}
    (h : s.Seated members) {c i v : Nat} (hv : (s.ring c).order[i]? = some v)
    (htangled : Drawing.tangledAt (s.chords c) i = true) :
    (s.takeInside c i v).crossings c < s.crossings c := by
  rw [h.chords_eq] at htangled
  rw [h.crossings_takeInside hv, if_pos rfl, h.crossings_eq]
  exact crossings_chordsIn_eraseIdx_lt (h.order_nodup c) htangled

end Skeleton

namespace Drawing

variable {K : Type} [Scalar K] {members : Nat → List Nat} {d d' e : Drawing K} {c v : Nat}

/-! ## Links and seats -/

/-- Two bodies that an inner link joins. -/
def IsNeighbor (d : Drawing K) (v u : Nat) : Prop :=
  ∃ e < d.links.size, (d.link e).isInner = true ∧ (d.link e).Touches v ∧ (d.link e).other v = u

theorem isNeighbor_of_links_eq (h : d'.links = d.links) : d'.IsNeighbor = d.IsNeighbor := by
  unfold IsNeighbor link
  rw [h]

section Neighbors

variable (h : LinksListed d)
include h

theorem LinksListed.mem_seatedNeighbors_iff {s : Seat K} (hs : (d.body v).seat? = some s) {u : Nat} :
    u ∈ d.seatedNeighbors v ↔ d.IsNeighbor v u ∧ (d.body u).isSeated = true := by
  unfold seatedNeighbors
  rw [hs, List.mem_filter, List.mem_map]
  refine and_congr_left fun _ => exists_congr fun e => ?_
  rw [h.mem_innerLinks_iff v s hs e]
  tauto

theorem LinksListed.ne_of_isNeighbor {u : Nat} (hu : d.IsNeighbor v u) : u ≠ v := by
  obtain ⟨e, he, -, htouches, rfl⟩ := hu
  have hne := h.source_ne_target e he
  unfold Link.other
  split
  next hsource => exact hsource ▸ hne.symm
  next hsource => exact hsource

/-- Neighbours belong to the same ring. -/
theorem LinksListed.ring?_eq_of_isNeighbor {u : Nat} (hu : d.IsNeighbor v u) :
    (d.body u).role.ring? = (d.body v).role.ring? := by
  obtain ⟨e, he, hinner, htouches, rfl⟩ := hu
  have hsame := h.ring?_eq_of_isInner e he hinner
  unfold Link.other
  split
  next hsource => rw [← hsame, hsource]
  next hsource => rw [hsame, htouches.resolve_left hsource]

end Neighbors

/-! ## Who goes inside -/

/-- The neighbours of a body stand next to each other in a cyclic order: cut open somewhere, the
order has all of them in front. -/
def NeighborsTogether (d : Drawing K) (order : List Nat) (v : Nat) : Prop :=
  ∃ k first rest, order.rotate k = first ++ rest ∧ first ≠ [] ∧
    (∀ u ∈ first, d.IsNeighbor v u) ∧ ∀ u ∈ rest, ¬d.IsNeighbor v u

theorem neighborsTogether_of_links_eq (h : d'.links = d.links) :
    d'.NeighborsTogether = d.NeighborsTogether := by
  unfold NeighborsTogether
  rw [isNeighbor_of_links_eq h]

/-- What is true of a member that may move inside. -/
structure MayLeave (d : Drawing K) (c v : Nat) : Prop where
  mem_order : v ∈ (d.ring c).order
  isInner : ∀ e < d.links.size, (d.link e).Touches v → (d.link e).isInner = true
  together : d.NeighborsTogether ((d.ring c).order.filter (· ≠ v)) v
  tangled : tangledAt (d.chords c) ((d.ring c).order.idxOf v) = true

theorem seat_index_eq (hd : d.skeleton.Seated members) {s : Seat K}
    (hs : (d.body v).seat? = some s) (hv : v ∈ (d.ring c).order) :
    s.index = (d.ring c).order.idxOf v := by
  have hseat := (seat?_map_eq_some_iff hd v c _).mpr (List.getElem?_idxOf hv)
  rw [hs] at hseat
  exact congrArg Prod.snd (Option.some.inj hseat)

/-- A body with a seat is in the order of the ring that it belongs to. -/
theorem mem_order_of_isSeated (hd : d.skeleton.Seated members)
    (hseated : (d.body v).isSeated = true) (hring : (d.body v).role.ring? = some c) :
    v ∈ (d.ring c).order := by
  obtain ⟨s, hs⟩ := Option.isSome_iff_exists.mp hseated
  have hseat : (d.skeleton.place v).seat? = some (s.ring, s.index) :=
    (Role.seat?_place _).trans (congrArg _ hs)
  rw [← ring?_wiring] at hring
  obtain rfl : c = s.ring := Option.some.inj (hring.symm.trans (Place.ring?_of_seat? hseat))
  exact List.mem_of_getElem? ((hd.seat_iff v _ _).mp hseat)

theorem mayLeave_of_firstToMoveInside? (h : LinksListed d) (hd : d.skeleton.Sound members)
    (hv : d.firstToMoveInside? c = some v) : MayLeave d c v := by
  have hmem : v ∈ (d.ring c).order := List.mem_of_find?_eq_some hv
  obtain ⟨s, hs, houter, hsome, htangled, hruns⟩ := canMoveInside_iff.mp (List.find?_some hv)
  have hneighbor := fun u => h.mem_seatedNeighbors_iff hs (u := u)
  constructor
  case mem_order => exact hmem
  case isInner => exact fun e he => h.isInner_of_outerLinks_eq_nil hs houter he
  case together =>
    obtain ⟨k, first, rest, hrotate, hfirst, hrest⟩ := CyclicOrder.neighborRuns_le_one_iff.mp hruns
    have hmem_iff : ∀ u, u ∈ first ∨ u ∈ rest ↔ u ∈ (d.ring c).order ∧ u ≠ v := by
      intro u
      rw [← List.mem_append, ← hrotate, List.mem_rotate, List.mem_filter, decide_eq_true_eq]
    refine ⟨k, first, rest, hrotate, ?_, fun u hu => ((hneighbor u).mp (hfirst u hu)).1, ?_⟩
    -- one of the neighbours is on the circle, and it is in front
    · obtain ⟨u, hu⟩ := List.exists_mem_of_ne_nil _ hsome
      obtain ⟨hlinked, hseated⟩ := (hneighbor u).mp hu
      have hring := (h.ring?_eq_of_isNeighbor hlinked).trans (ring?_of_mem_order hd hmem)
      have horder := (hmem_iff u).mpr
        ⟨mem_order_of_isSeated hd.seated hseated hring, h.ne_of_isNeighbor hlinked⟩
      exact List.ne_nil_of_mem (horder.resolve_right fun hback => hrest u hback hu)
    · intro u hu hlinked
      have horder := ((hmem_iff u).mp (.inr hu)).1
      exact hrest u hu ((hneighbor u).mpr ⟨hlinked, isSeated_of_mem_order hd horder⟩)
  case tangled => exact seat_index_eq hd.seated hs hmem ▸ htangled

/-! ## One member after the other -/

/-- What becomes of a ring whose members go inside one after the other. -/
structure Relocates (c budget : Nat) (moved : List Nat) (d d' : Drawing K) : Prop where
  inside_eq : (d'.ring c).inside = (d.ring c).inside ++ moved
  order_eq : (d'.ring c).order = (d.ring c).order.filter (· ∉ moved)
  mem_order : ∀ v ∈ moved, v ∈ (d.ring c).order
  nodup : moved.Nodup
  length_le : moved.length ≤ budget
  min_le_length : min (d.ring c).order.length 3 ≤ (d'.ring c).order.length
  /-- No link leads out of the ring from somebody who moves. -/
  isInner : ∀ v ∈ moved, ∀ e < d.links.size, (d.link e).Touches v → (d.link e).isInner = true
  /-- The neighbours that were on the circle when somebody moved stood next to each other. -/
  together : ∀ k v, moved[k]? = some v →
    d.NeighborsTogether ((d.ring c).order.filter (· ∉ moved.take (k + 1))) v
  crossingCount_le : d'.crossingCount c + moved.length ≤ d.crossingCount c
  sameOn : moved = [] → SameOn c d d'

namespace Relocates

variable {budget : Nat} {moved : List Nat}

theorem refl (c budget : Nat) (d : Drawing K) : Relocates c budget [] d d := by
  constructor
  case sameOn => exact fun _ => .refl c d
  all_goals simp

/-- One member moves before the others. -/
theorem cons (hv : MayLeave d c v) (hlong : 3 < (d.ring c).order.length)
    (hnodup : (d.ring c).order.Nodup) (hlinks : d'.links = d.links)
    (hinside : (d'.ring c).inside = (d.ring c).inside ++ [v])
    (horder : (d'.ring c).order = (d.ring c).order.erase v)
    (hcount : d'.crossingCount c < d.crossingCount c) (h : Relocates c budget moved d' e) :
    Relocates c (budget + 1) (v :: moved) d e := by
  have hmem : ∀ u ∈ moved, u ∈ (d.ring c).order ∧ u ≠ v := by
    intro u hu
    have hu := h.mem_order u hu
    rw [horder, hnodup.mem_erase_iff] at hu
    exact hu.symm
  have hfilter : ∀ l : List Nat, (d'.ring c).order.filter (· ∉ l) =
      (d.ring c).order.filter (· ∉ v :: l) := by
    intro l
    rw [horder, hnodup.erase_eq_filter, List.filter_filter]
    refine List.filter_congr fun u _ => ?_
    simp [Bool.and_comm, bne, beq_eq_decide]
  constructor
  case inside_eq => rw [h.inside_eq, hinside, List.append_assoc, List.singleton_append]
  case order_eq => rw [h.order_eq, hfilter]
  case mem_order => exact List.forall_mem_cons.mpr ⟨hv.mem_order, fun u hu => (hmem u hu).1⟩
  case nodup => exact List.nodup_cons.mpr ⟨fun hmem' => (hmem v hmem').2 rfl, h.nodup⟩
  case length_le => exact Nat.succ_le_succ h.length_le
  case min_le_length =>
    have hshort : (d.ring c).order.length ≤ (d'.ring c).order.length + 1 := by
      rw [horder, List.length_erase_of_mem hv.mem_order]
      omega
    have hle := h.min_le_length
    omega
  case isInner =>
    have hrest := h.isInner
    simp only [link, hlinks] at hrest
    exact List.forall_mem_cons.mpr ⟨hv.isInner, hrest⟩
  case together =>
    intro k u hu
    cases k with
    | zero =>
        obtain rfl := Option.some.inj hu
        simpa using hv.together
    | succ k =>
        have hrest := h.together k u hu
        rwa [hfilter, neighborsTogether_of_links_eq hlinks] at hrest
  case crossingCount_le =>
    have hle := h.crossingCount_le
    rw [List.length_cons]
    omega
  case sameOn => exact fun hnil => absurd hnil (List.cons_ne_nil v moved)

/-- What the skeleton does not show is of no account once somebody has moved. -/
theorem of_skeleton_eq (h : Relocates c budget moved d d') (hmoved : moved ≠ [])
    (hskeleton : e.skeleton = d'.skeleton) : Relocates c budget moved d e := by
  have horder : (e.ring c).order = (d'.ring c).order :=
    congrArg (fun s => (s.ring c).order) hskeleton
  have hinside : (e.ring c).inside = (d'.ring c).inside :=
    congrArg (fun s => (s.ring c).inside) hskeleton
  have hcount : e.crossingCount c = d'.crossingCount c := by
    rw [crossingCount_eq, crossingCount_eq, hskeleton]
  refine { h with
    inside_eq := hinside.trans h.inside_eq
    order_eq := horder.trans h.order_eq
    min_le_length := horder ▸ h.min_le_length
    crossingCount_le := hcount ▸ h.crossingCount_le
    sameOn := fun hnil => absurd hnil hmoved }

end Relocates

theorem SameOn.crossingCount_eq (h : SameOn c d d') (hd : d.skeleton.Seated members)
    (hd' : d'.skeleton.Seated members) (hlinks : d'.links = d.links) :
    d'.crossingCount c = d.crossingCount c := by
  have hring : d'.skeleton.ring c = d.skeleton.ring c := congrArg Ring.shape h.ring_eq
  have hlink : d'.skeleton.link = d.skeleton.link := by
    funext e
    change (d'.link e).shape = (d.link e).shape
    rw [link, hlinks, link]
  rw [d'.crossingCount_eq, d.crossingCount_eq, hd'.crossings_eq, hd.crossings_eq, hring, hlink]

/-! ## One ring -/

/-- Whoever moves inside and is put somewhere leaves the circle to the others. -/
theorem relocates_cons (h : LinksListed d) (hd : d.skeleton.Sound members)
    (hv : d.firstToMoveInside? c = some v) (hlong : 3 < (d.ring c).order.length) (p : Point K)
    {budget : Nat} {moved : List Nat}
    (hmoved : Relocates c budget moved ((d.moveInside c v).setCenter v p) e) :
    Relocates c (budget + 1) (v :: moved) d e := by
  have hleave := mayLeave_of_firstToMoveInside? h hd hv
  have hindex := List.getElem?_idxOf hleave.mem_order
  have hskeleton : ((d.moveInside c v).setCenter v p).skeleton =
      d.skeleton.takeInside c ((d.ring c).order.idxOf v) v := by
    rw [skeleton_setCenter, skeleton_moveInside hd.seated
      ((CyclicOrder.idxOf?_eq_iff (hd.seated.order_nodup c)).mpr hindex)]
  have hring := (congrArg (fun s => s.ring c) hskeleton).trans
    ((d.skeleton.ring_takeInside c _ v c).trans (if_pos rfl))
  have hlinks : ((d.moveInside c v).setCenter v p).links = d.links := d.links_moveInside c v
  refine Relocates.cons hleave hlong (hd.seated.order_nodup c) hlinks ?_ ?_ ?_ hmoved
  · exact congrArg RingShape.inside hring
  · exact (congrArg RingShape.order hring).trans (List.eraseIdx_idxOf_eq_erase v _)
  · rw [crossingCount_eq, crossingCount_eq, hskeleton]
    refine hd.seated.crossings_takeInside_lt hindex ?_
    rw [chords_skeleton]
    exact hleave.tangled

theorem exists_relocates_moveMembersInside (h : LinksListed d) (hd : d.skeleton.Sound members)
    (c budget : Nat) : ∃ moved, (moveMembersInside c budget d).1 = moved.length ∧
      Relocates c budget moved d (moveMembersInside c budget d).2 := by
  induction budget generalizing d with
  | zero => exact ⟨[], rfl, .refl c 0 d⟩
  | succ budget ih =>
      rw [moveMembersInside]
      split
      next hlong =>
        split
        next => exact ⟨[], rfl, .refl c _ d⟩
        next v hv =>
          have hmove := secludes_moveInside hd hv (d.insideTarget c v)
          obtain ⟨moved, hcount, hmoved⟩ := ih (h.of_evolves hmove.toEvolves) hmove.sound
          exact ⟨v :: moved, congrArg (· + 1) hcount, relocates_cons h hd hv hlong _ hmoved⟩
      next => exact ⟨[], rfl, .refl c _ d⟩

theorem local_moveMembersInside (c budget : Nat) (hd : d.skeleton.Sound members) :
    Local c d (moveMembersInside c budget d).2 := by
  induction budget generalizing d with
  | zero => exact .refl c d
  | succ budget ih =>
      rw [moveMembersInside]
      split
      · split
        next => exact .refl c d
        next v hv =>
          have hmem : v ∈ (d.ring c).order := List.mem_of_find?_eq_some hv
          have hgone := local_moveInside hd c v
          have hring := (hgone.ring?_eq v).trans (ring?_of_mem_order hd hmem)
          have hput : Local c d ((d.moveInside c v).setCenter v (d.insideTarget c v)) :=
            hgone.trans (local_modifyBody hring hring)
          exact hput.trans (ih (secludes_moveInside hd hv (d.insideTarget c v)).sound)
      · exact .refl c d

/-- Drawing the members inside a ring back. -/
def drawnBack (d : Drawing K) (c : Nat) : Drawing K :=
  (d.ring c).inside.foldl (fun e v => e.keepInside v (d.ringCenter c) (d.ring c).radius) d

theorem skeleton_drawnBack (d : Drawing K) (c : Nat) : (d.drawnBack c).skeleton = d.skeleton :=
  foldl_eq_of_step_eq skeleton (fun e v => e.skeleton_keepInside v _ _) _ d

theorem local_drawnBack (hd : d.skeleton.Sound members) (c : Nat) : Local c d (d.drawnBack c) :=
  .foldl id (fun _ hv => ring?_of_mem_inside hd hv) fun _ _ hv => local_keepInside hv _ _

theorem moveMembersInside_eq_of_none (c budget : Nat) (d : Drawing K)
    (h : (moveMembersInside c budget d).1 = 0) : (moveMembersInside c budget d).2 = d := by
  cases budget with
  | zero => rfl
  | succ budget =>
      rw [moveMembersInside] at h ⊢
      split
      next hlong =>
        rw [if_pos hlong] at h
        split
        next => rfl
        next v hv =>
          rw [hv] at h
          exact absurd h (Nat.succ_ne_zero _)
      next => rfl

/-- The number of members of a ring that may move inside. -/
def moveBudget (share : K) (d : Drawing K) (c : Nat) : Nat :=
  Scalar.floorNat (((d.ring c).order.length : K) * share)

/-- A ring is laid out anew if members have gone inside. -/
theorem relocateOnRing_eq (share separation : K) (total : Nat) (d : Drawing K) (c : Nat) :
    relocateOnRing share separation (total, d) c =
      let moved := moveMembersInside c (moveBudget share d c) d
      if moved.1 = 0 then (total, moved.2)
      else (total + moved.1, (moved.2.spread c separation).drawnBack c) :=
  rfl

theorem local_relocateOnRing (share separation : K) (total : Nat)
    (hd : d.skeleton.Sound members) (c : Nat) :
    Local c d (relocateOnRing share separation (total, d) c).2 := by
  have hmoved := local_moveMembersInside c (moveBudget share d c) hd
  have hsound := (secludes_moveMembersInside c (moveBudget share d c) hd).sound
  rw [relocateOnRing_eq]
  dsimp only
  split
  · exact hmoved
  · have hspread := skeleton_spread hsound.seated c separation
    exact (hmoved.trans (local_spread hsound c separation)).trans
      (local_drawnBack (hspread.symm ▸ hsound) c)

theorem exists_relocates_relocateOnRing (h : LinksListed d) (hd : d.skeleton.Sound members)
    (share separation : K) (total c : Nat) : ∃ moved,
      (relocateOnRing share separation (total, d) c).1 = total + moved.length ∧
      Relocates c (moveBudget share d c) moved d
        (relocateOnRing share separation (total, d) c).2 := by
  obtain ⟨moved, hcount, hmoved⟩ := exists_relocates_moveMembersInside h hd c (moveBudget share d c)
  have hsound := (secludes_moveMembersInside c (moveBudget share d c) hd).sound
  refine ⟨moved, ?_⟩
  rw [relocateOnRing_eq]
  dsimp only
  rw [hcount]
  split
  next hnone => exact ⟨congrArg (total + ·) hnone.symm, hmoved⟩
  next hsome =>
    refine ⟨rfl, hmoved.of_skeleton_eq ?_
      ((skeleton_drawnBack _ c).trans (skeleton_spread hsound.seated c separation))⟩
    exact fun hnil => hsome (congrArg List.length hnil)

end Drawing

end RingLayout
