import RingLayout.Proofs.Components

/-! # Hop distances

A search from an index goes through the layers of equal distance from it, one after the other. The
distance that it gives to an index is the least number of steps that lead there.
-/

namespace RingLayout.Adjacency

/-- A walk of so many steps leads from an index to another. -/
inductive Steps (adj : Adjacency) (u : Nat) : Nat → Nat → Prop
  | refl : Steps adj u 0 u
  | tail {k v w : Nat} : Steps adj u k v → adj.Joins v w → Steps adj u (k + 1) w

/-- The least number of steps from an index to another. -/
structure Away (adj : Adjacency) (u v d : Nat) : Prop where
  steps : adj.Steps u d v
  le : ∀ k, adj.Steps u k v → d ≤ k

variable {adj : Adjacency} {u v w : Nat}

namespace Steps

theorem trans {j k : Nat} (huv : adj.Steps u j v) (hvw : adj.Steps v k w) :
    adj.Steps u (j + k) w := by
  induction hvw with
  | refl => exact huv
  | tail _ hjoins ih => exact ih.tail hjoins

theorem reaches {k : Nat} (h : adj.Steps u k v) : adj.Reaches u v := by
  induction h with
  | refl => exact .refl
  | tail _ hjoins ih => exact ih.tail hjoins

theorem mono {adj' : Adjacency} (hsub : ∀ v w, adj.Joins v w → adj'.Joins v w) {k : Nat}
    (h : adj.Steps u k v) : adj'.Steps u k v := by
  induction h with
  | refl => exact .refl
  | tail _ hjoins ih => exact ih.tail (hsub _ _ hjoins)

theorem exists_away {k : Nat} (h : adj.Steps u k v) : ∃ d ≤ k, adj.Away u v d := by
  classical
  have hex : ∃ k, adj.Steps u k v := ⟨k, h⟩
  exact ⟨Nat.find hex, Nat.find_min' hex h, Nat.find_spec hex, fun _ => Nat.find_min' hex⟩

end Steps

theorem Reaches.exists_away (h : adj.Reaches u v) : ∃ d, adj.Away u v d := by
  have hsteps : ∃ k, adj.Steps u k v := by
    induction h with
    | refl => exact ⟨0, .refl⟩
    | tail _ hjoins ih => exact ih.imp' (· + 1) fun _ hk => hk.tail hjoins
  obtain ⟨k, hk⟩ := hsteps
  exact hk.exists_away.imp fun _ h => h.2

namespace Away

variable {d d' : Nat}

theorem unique (h : adj.Away u v d) (h' : adj.Away u v d') : d = d' :=
  Nat.le_antisymm (h.le d' h'.steps) (h'.le d h.steps)

theorem lt_size (hadj : adj.InRange) (hu : u < adj.size) (h : adj.Away u v d) : v < adj.size := by
  cases h.steps with
  | refl => exact hu
  | tail _ hjoins => exact hadj _ v hjoins

theorem zero_iff : adj.Away u v 0 ↔ v = u := by
  constructor
  · intro h
    cases h.steps
    rfl
  · rintro rfl
    exact ⟨.refl, fun _ _ => Nat.zero_le _⟩

/-- What lies one step further away is next to the layer before it and not in any earlier one. -/
theorem succ_iff : adj.Away u v (d + 1) ↔
    (∃ w, adj.Away u w d ∧ adj.Joins w v) ∧ ∀ k ≤ d, ¬adj.Away u v k := by
  constructor
  · rintro ⟨hsteps, hle⟩
    cases hsteps with
    | @tail _ w _ hw hjoins =>
        refine ⟨⟨w, ⟨hw, fun k hk => ?_⟩, hjoins⟩, fun k hk hv => ?_⟩
        · exact Nat.le_of_succ_le_succ (hle _ (hk.tail hjoins))
        · exact absurd (hle k hv.steps) (Nat.not_le_of_lt (Nat.lt_succ_of_le hk))
  · rintro ⟨⟨w, hw, hjoins⟩, hnot⟩
    refine ⟨hw.steps.tail hjoins, fun k hk => ?_⟩
    obtain ⟨e, hek, he⟩ := hk.exists_away
    have hde : d < e := Nat.lt_of_not_le fun hle => hnot e hle he
    exact Nat.succ_le_of_lt (hde.trans_le hek)

end Away

/-! ## What a search knows -/

theorem size_settle (hops : Nat) (vs : List Nat) (dist : Array (Option Nat)) :
    (settle hops vs dist).2.size = dist.size := by
  induction vs generalizing dist with
  | nil => rfl
  | cons v vs ih =>
      rw [settle]
      split
      · exact (ih _).trans Array.size_setIfInBounds
      · exact ih dist

theorem getElem?_settle (hops : Nat) (vs : List Nat) (dist : Array (Option Nat)) (v : Nat) :
    (settle hops vs dist).2[v]? =
      if v ∈ vs ∧ Unsettled dist v then some (some hops) else dist[v]? := by
  induction vs generalizing dist with
  | nil => simp [settle]
  | cons w vs ih =>
      rw [settle]
      split
      next hw =>
        have hlt : w < dist.size := Unsettled.lt hw
        simp only [ih, unsettled_setIfInBounds, List.mem_cons, Array.getElem?_setIfInBounds]
        by_cases hv : v = w
        · subst hv
          have hopen : Unsettled dist v := hw
          simp [hlt, hopen]
        · simp [hv, Ne.symm hv]
      next hw =>
        rw [ih]
        by_cases hv : v = w
        · subst hv
          simp [Unsettled, hw]
        · simp [hv]

/-- Everything up to a distance from an index is settled, and the layer is what lies at that
distance. -/
structure Layered (adj : Adjacency) (u hops : Nat) (layer : List Nat)
    (dist : Array (Option Nat)) : Prop where
  size_eq : dist.size = adj.size
  mem_iff : ∀ v, v ∈ layer ↔ adj.Away u v hops
  settled_iff : ∀ v d, dist[v]? = some (some d) ↔ d ≤ hops ∧ adj.Away u v d

/-- The settled distances are the distances from an index. -/
structure Measures (adj : Adjacency) (u : Nat) (dist : Array (Option Nat)) : Prop where
  size_eq : dist.size = adj.size
  settled_iff : ∀ v d, dist[v]? = some (some d) ↔ adj.Away u v d

namespace Layered

variable {hops : Nat} {layer : List Nat} {dist : Array (Option Nat)}

theorem unsettled_iff (h : Layered adj u hops layer dist) (hv : v < adj.size) :
    Unsettled dist v ↔ ∀ d ≤ hops, ¬adj.Away u v d := by
  have hlt : v < dist.size := h.size_eq ▸ hv
  have hentry := h.settled_iff v
  rw [Array.getElem?_eq_getElem hlt] at hentry
  rw [Unsettled, Array.getElem?_eq_getElem hlt]
  cases hget : dist[v] with
  | none =>
      rw [hget] at hentry
      refine iff_of_true rfl fun d hd haway => ?_
      cases (hentry d).mpr ⟨hd, haway⟩
  | some d =>
      rw [hget] at hentry
      refine iff_of_false (fun heq => by cases heq) fun hnot => ?_
      obtain ⟨hd, haway⟩ := (hentry d).mp rfl
      exact hnot d hd haway

/-- The neighbours of a layer that were not settled are the next layer. -/
theorem settle (hadj : adj.InRange) (h : Layered adj u hops layer dist) :
    Layered adj u (hops + 1)
      (Adjacency.settle (hops + 1) (layer.flatMap adj.neighbors) dist).1
      (Adjacency.settle (hops + 1) (layer.flatMap adj.neighbors) dist).2 := by
  have hnext : ∀ v, v ∈ layer.flatMap adj.neighbors ∧ Unsettled dist v ↔
      adj.Away u v (hops + 1) := by
    intro v
    rw [Away.succ_iff, List.mem_flatMap]
    simp only [h.mem_iff]
    exact and_congr_right fun ⟨w, _, hjoins⟩ => h.unsettled_iff (hadj w v hjoins)
  constructor
  case size_eq => exact (size_settle ..).trans h.size_eq
  case mem_iff =>
    intro v
    rw [(settles_settle _ _ _).mem_iff, hnext]
  case settled_iff =>
    intro v d
    rw [getElem?_settle]
    split
    next hv =>
      have haway := (hnext v).mp hv
      rw [Option.some.injEq, Option.some.injEq]
      constructor
      · rintro rfl
        exact ⟨Nat.le_refl _, haway⟩
      · exact fun h => haway.unique h.2
    next hv =>
      rw [h.settled_iff]
      refine and_congr_left fun haway => ⟨Nat.le_succ_of_le, fun hd => ?_⟩
      rcases Nat.lt_or_eq_of_le hd with hlt | rfl
      · exact Nat.le_of_lt_succ hlt
      · exact absurd ((hnext v).mpr haway) hv

/-- When nothing lies at a distance, nothing lies beyond it. -/
theorem measures_of_nil (h : Layered adj u hops [] dist) : Measures adj u dist := by
  have hnone : ∀ d v, hops ≤ d → ¬adj.Away u v d := by
    intro d v hd
    induction d, hd using Nat.le_induction generalizing v with
    | base => exact fun haway => List.not_mem_nil ((h.mem_iff v).mpr haway)
    | succ d _ ih =>
        intro haway
        obtain ⟨⟨w, hw, -⟩, -⟩ := Away.succ_iff.mp haway
        exact ih w hw
  refine ⟨h.size_eq, fun v d => (h.settled_iff v d).trans (and_iff_right_of_imp fun haway => ?_)⟩
  exact Nat.le_of_not_le fun hle => hnone d v hle haway

/-- When everything is settled, all distances are known. -/
theorem measures_of_settled (h : Layered adj u hops layer dist) (hadj : adj.InRange)
    (hu : u < adj.size) (hall : ∀ v, ¬Unsettled dist v) : Measures adj u dist := by
  refine ⟨h.size_eq, fun v d => (h.settled_iff v d).trans (and_iff_right_of_imp fun haway => ?_)⟩
  have hopen := mt (h.unsettled_iff (haway.lt_size hadj hu)).mpr (hall v)
  push Not at hopen
  obtain ⟨e, he, haway'⟩ := hopen
  exact haway.unique haway' ▸ he

/-- A search goes through all further layers. -/
theorem measures_search (hadj : adj.InRange) (hu : u < adj.size) {layers : Nat}
    (h : Layered adj u hops layer dist) (hlayers : (unsettled dist).card ≤ layers) :
    Measures adj u (search adj layers hops layer dist).2 := by
  induction layers generalizing hops layer dist with
  | zero =>
      exact h.measures_of_settled hadj hu (not_unsettled_of_card (Nat.le_zero.mp hlayers))
  | succ layers ih =>
      have hnext := h.settle hadj
      obtain ⟨hmem, hopen⟩ := settles_settle (hops + 1) (layer.flatMap adj.neighbors) dist
      rw [search]
      generalize Adjacency.settle (hops + 1) (layer.flatMap adj.neighbors) dist = settled at *
      obtain ⟨next, dist'⟩ := settled
      dsimp only at *
      split
      next hempty =>
        rw [List.isEmpty_iff.mp hempty] at hnext
        exact hnext.measures_of_nil
      next hne =>
        obtain ⟨w, hw⟩ := List.exists_mem_of_ne_nil next (by simpa using hne)
        obtain ⟨hjoined, hw'⟩ := (hmem w).mp hw
        have hfewer := card_unsettled_lt (fun v hv => ((hopen v).mp hv).1) hw'
          fun h => ((hopen w).mp h).2 hjoined
        exact ih hnext (Nat.le_of_lt_succ (hfewer.trans_le hlayers))

end Layered

theorem layered_start (hu : u < adj.size) :
    Layered adj u 0 (settle 0 [u] (Array.replicate adj.size none)).1
      (settle 0 [u] (Array.replicate adj.size none)).2 := by
  have hopen := (unsettled_replicate adj.size u).mpr hu
  constructor
  case size_eq => exact (size_settle ..).trans Array.size_replicate
  case mem_iff =>
    intro v
    rw [(settles_settle _ _ _).mem_iff, Away.zero_iff, List.mem_singleton]
    exact and_iff_left_of_imp fun hv => hv ▸ hopen
  case settled_iff =>
    intro v d
    rw [getElem?_settle, Nat.le_zero]
    split
    next hv =>
      rw [Option.some.injEq, Option.some.injEq, eq_comm]
      refine (and_iff_left_of_imp ?_).symm
      rintro rfl
      exact Away.zero_iff.mpr (List.mem_singleton.mp hv.1)
    next hv =>
      refine iff_of_false (fun heq => ?_) ?_
      · rw [Array.getElem?_replicate] at heq
        split at heq <;> cases heq
      · rintro ⟨rfl, haway⟩
        obtain rfl := Away.zero_iff.mp haway
        exact hv ⟨List.mem_singleton_self v, hopen⟩

/-- The distances that a search from an index gives are the distances from it. -/
theorem measures_hopsFrom (hadj : adj.InRange) (hu : u < adj.size) :
    Measures adj u (adj.hopsFrom u) := by
  have hstart := layered_start hu
  have hcard : (unsettled (settle 0 [u] (Array.replicate adj.size none)).2).card ≤ adj.size :=
    card_unsettled_le fun v hv => hstart.size_eq ▸ hv.lt
  exact hstart.measures_search hadj hu hcard

theorem hopsFrom_eq_some_iff (hadj : adj.InRange) (hu : u < adj.size) {d : Nat} :
    (adj.hopsFrom u)[v]? = some (some d) ↔ adj.Away u v d :=
  (measures_hopsFrom hadj hu).settled_iff v d


/-! ## What a search finds out -/

theorem settle_of_settled {hops : Nat} {vs : List Nat} {dist : Array (Option Nat)}
    (h : ∀ v ∈ vs, ¬Unsettled dist v) : settle hops vs dist = ([], dist) := by
  induction vs with
  | nil => rfl
  | cons v vs ih =>
      obtain ⟨hv, hvs⟩ := List.forall_mem_cons.mp h
      have hv : ¬dist[v]? = some none := hv
      rw [settle, if_neg hv]
      exact ih hvs

/-- Every layer settles an index, so a search with a layer for each unsettled index ends by itself:
allowed more layers, it finds the same. -/
theorem search_of_le (adj : Adjacency) {layers layers' : Nat} (hops : Nat) (layer : List Nat)
    {dist : Array (Option Nat)} (hlayers : (unsettled dist).card ≤ layers)
    (hle : layers ≤ layers') :
    search adj layers' hops layer dist = search adj layers hops layer dist := by
  induction layers generalizing layers' hops layer dist with
  | zero =>
      have hnone := not_unsettled_of_card (Nat.le_zero.mp hlayers)
      cases layers' with
      | zero => rfl
      | succ layers' =>
          rw [search, search, settle_of_settled fun v _ => hnone v]
          rfl
  | succ layers ih =>
      obtain ⟨layers', rfl⟩ := Nat.exists_eq_succ_of_ne_zero (Nat.ne_zero_of_lt hle)
      obtain ⟨hmem, hopen⟩ := settles_settle (hops + 1) (layer.flatMap adj.neighbors) dist
      rw [search, search]
      generalize settle (hops + 1) (layer.flatMap adj.neighbors) dist = settled at *
      obtain ⟨next, dist'⟩ := settled
      dsimp only at *
      split
      next => rfl
      next hne =>
        obtain ⟨w, hw⟩ := List.exists_mem_of_ne_nil next (by simpa using hne)
        obtain ⟨hjoined, hw'⟩ := (hmem w).mp hw
        have hfewer := card_unsettled_lt (fun v hv => ((hopen v).mp hv).1) hw'
          fun h => ((hopen w).mp h).2 hjoined
        rw [ih (hops + 1) next (Nat.le_of_lt_succ (hfewer.trans_le hlayers))
          (Nat.le_of_succ_le_succ hle)]

/-- From a start out of range nothing is settled. -/
theorem hopsFrom_of_le (h : adj.size ≤ u) : adj.hopsFrom u = Array.replicate adj.size none := by
  have hstart : settle 0 [u] (Array.replicate adj.size none) =
      ([], Array.replicate adj.size none) := by
    refine settle_of_settled fun v hv => ?_
    rw [List.mem_singleton.mp hv, unsettled_replicate]
    exact Nat.not_lt_of_le h
  have hcard : (unsettled (Array.replicate adj.size (none : Option Nat))).card ≤ adj.size :=
    card_unsettled_le fun v hv => (unsettled_replicate _ v).mp hv
  have hrest := search_of_le adj 0 [] hcard (Nat.le_succ _)
  rw [hopsFrom, searchFrom, hstart]
  dsimp only
  rw [← hrest]
  rfl

/-- What the search from an index finds out about a graph. -/
structure FindsHops (adj : Adjacency) (u : Nat) : Prop where
  size_eq : (adj.hopsFrom u).size = adj.size
  /-- A distance is the least number of steps that lead from the index to another. -/
  some_iff : ∀ v d, (adj.hopsFrom u)[v]? = some (some d) ↔ u < adj.size ∧ adj.Away u v d
  /-- There is a distance wherever a path leads. -/
  none_iff : ∀ v < adj.size, (adj.hopsFrom u)[v]? = some none ↔ ¬(u < adj.size ∧ adj.Reaches u v)
  /-- The search ends by itself, not for lack of layers. -/
  ends : ∀ layers, adj.size ≤ layers →
    (search adj layers 0 (settle 0 [u] (Array.replicate adj.size none)).1
      (settle 0 [u] (Array.replicate adj.size none)).2).2 = adj.hopsFrom u

/-- In every graph, with arcs in both directions or in one, repeated or back to where they start,
the search finds all distances from an index, and none from a number that is no index. -/
theorem findsHops (hadj : adj.InRange) (u : Nat) : FindsHops adj u := by
  have hsome : ∀ v d, (adj.hopsFrom u)[v]? = some (some d) ↔ u < adj.size ∧ adj.Away u v d := by
    intro v d
    by_cases hu : u < adj.size
    · rw [hopsFrom_eq_some_iff hadj hu, and_iff_right hu]
    · refine iff_of_false (fun heq => ?_) fun h => hu h.1
      rw [hopsFrom_of_le (Nat.le_of_not_lt hu), Array.getElem?_replicate] at heq
      split at heq <;> cases heq
  have hsize : (adj.hopsFrom u).size = adj.size := by
    by_cases hu : u < adj.size
    · exact (measures_hopsFrom hadj hu).size_eq
    · rw [hopsFrom_of_le (Nat.le_of_not_lt hu), Array.size_replicate]
  refine ⟨hsize, hsome, fun v hv => ?_, fun layers hlayers => ?_⟩
  · rw [← hsize] at hv
    have hentry := hsome v
    rw [Array.getElem?_eq_getElem hv] at hentry ⊢
    constructor
    · rintro hnone ⟨hu, hreaches⟩
      obtain ⟨d, haway⟩ := hreaches.exists_away
      cases hnone.symm.trans ((hentry d).mpr ⟨hu, haway⟩)
    · intro hnot
      cases hget : (adj.hopsFrom u)[v] with
      | none => rfl
      | some d =>
          obtain ⟨hu, haway⟩ := (hentry d).mp (congrArg some hget)
          exact absurd ⟨hu, haway.steps.reaches⟩ hnot
  · have hcard : (unsettled (settle 0 [u] (Array.replicate adj.size none)).2).card ≤ adj.size := by
      refine card_unsettled_le fun v hv => ?_
      have hlt := hv.lt
      rwa [size_settle, Array.size_replicate] at hlt
    rw [search_of_le adj 0 _ hcard hlayers]
    rfl

/-- Four indices with a repeated arc, two loops, and arcs in one direction only. -/
def arcs : Adjacency := #[[1, 1, 0], [2], [2], [0]]

theorem findsHops_arcs : arcs.InRange ∧ FindsHops arcs 0 ∧
    arcs.hopsFrom 0 = #[some 0, some 1, some 2, none] := by
  have hrange : arcs.InRange := by
    intro v u hu
    match v with
    | 0 | 1 | 2 | 3 =>
        simp [arcs, neighbors] at hu
        change u < 4
        omega
    | v + 4 => cases hu
  exact ⟨hrange, findsHops hrange 0, by decide +kernel⟩

end RingLayout.Adjacency
