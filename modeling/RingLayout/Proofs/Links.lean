import RingLayout.Proofs.Seating.Build
import RingLayout.Proofs.Validity

/-! # Links of a new drawing

A drawing has a link for the first edge of every pair of distinct drawn nodes. The rings, the
seats, the adjacency and the bodies set aside each show these links in their own way, and all of
them agree.
-/

open scoped List

namespace RingLayout

/-- Whether two edges join the same ids, in whichever direction. -/
def Edge.samePair (e f : Edge) : Bool :=
  e.source == f.source && e.target == f.target || e.source == f.target && e.target == f.source

/-- Whether an edge joins two distinct drawn nodes. -/
def Graph.joinsDrawn {K : Type} (g : Graph K) (e : Edge) : Bool :=
  g.drawnIds.contains e.source && g.drawnIds.contains e.target && e.source != e.target

/-- Whether an edge joins two distinct drawn nodes that no edge before it joins. -/
def Graph.addsLink {K : Type} (g : Graph K) (before : List Edge) (e : Edge) : Bool :=
  g.joinsDrawn e && !before.any e.samePair

/-- The edges that join two distinct drawn nodes as the first of their pair. -/
def Graph.firstEdges {K : Type} (g : Graph K) : List Edge :=
  ((withEarlier [] g.edges).filter fun p => g.addsLink p.1 p.2).map (·.2)

/-- A list of the numbers with a property, in increasing order and each of them once. -/
structure Listing (l : List Nat) (P : Nat → Prop) : Prop where
  increasing : l.Pairwise (· < ·)
  mem_iff : ∀ n, n ∈ l ↔ P n

theorem Listing.congr {l : List Nat} {P Q : Nat → Prop} (h : Listing l P) (hPQ : ∀ n, P n ↔ Q n) :
    Listing l Q :=
  ⟨h.increasing, fun n => (h.mem_iff n).trans (hPQ n)⟩

/-- The positions of the entries of a list that pass a test. -/
theorem listing_positions {α : Type} (test : α → Bool) (l : List α) :
    Listing ((l.zipIdx.filter fun p => test p.1).map (·.2))
      fun n => ∃ a, l[n]? = some a ∧ test a = true where
  increasing := by
    rw [List.pairwise_map]
    refine List.Pairwise.filter _ ?_
    rw [← List.pairwise_map (f := Prod.snd) (R := (· < ·)), List.zipIdx_map_snd]
    exact List.pairwise_lt_range'
  mem_iff n := by
    simp only [List.mem_map, List.mem_filter, Prod.exists, List.mem_zipIdx_iff_getElem?]
    constructor
    · rintro ⟨a, e, ⟨ha, htest⟩, rfl⟩
      exact ⟨a, ha, htest⟩
    · rintro ⟨a, ha, htest⟩
      exact ⟨a, n, ⟨ha, htest⟩, rfl⟩

/-- The numbers below a bound that pass a test. -/
theorem listing_range {test : Nat → Bool} {n : Nat} :
    Listing ((List.range n).filter test) fun v => v < n ∧ test v = true where
  increasing := List.pairwise_lt_range.filter _
  mem_iff v := by rw [List.mem_filter, List.mem_range]

namespace Drawing

variable {K : Type}

/-! ## Linked pairs -/

theorem indexOf?_eq_some_iff {ids : List String} (hids : ids.Nodup) {id : String} {v : Nat} :
    indexOf? ids id = some v ↔ ids[v]? = some id := by
  rw [indexOf?, List.idxOf?_eq_some_iff, List.getElem?_eq_some_iff]
  constructor
  · rintro ⟨hv, hget, -⟩
    exact ⟨hv, hget⟩
  · rintro ⟨hv, hget⟩
    refine ⟨hv, hget, fun u hu heq => ?_⟩
    exact Nat.ne_of_lt hu ((List.Nodup.getElem_inj_iff hids).mp (heq.trans hget.symm))

theorem indexOf?_eq_none_iff {ids : List String} {id : String} :
    indexOf? ids id = none ↔ id ∉ ids :=
  List.idxOf?_eq_none_iff

/-- Linked pairs are of two distinct nodes. -/
theorem linkPairs_ne (ids : List String) (seen : List (Nat × Nat)) (es : List Edge) :
    ∀ p ∈ linkPairs ids seen es, p.1 ≠ p.2 ∧ p.1 < ids.length ∧ p.2 < ids.length := by
  induction es generalizing seen with
  | nil => simp [linkPairs]
  | cons e es ih =>
      rw [linkPairs]
      split
      next a b ha hb =>
        split
        · exact ih seen
        next hnew =>
          intro p hp
          rcases List.mem_cons.mp hp with rfl | hp
          · exact ⟨fun heq => hnew (Or.inl heq), indexOf?_lt ha, indexOf?_lt hb⟩
          · exact ih _ p hp
      next => exact ih seen

/-- The pairs seen so far are those that earlier edges join. -/
def SeesPairs (ids : List String) (seen : List (Nat × Nat)) (pre : List Edge) : Prop :=
  ∀ (e : Edge) (a b : Nat), indexOf? ids e.source = some a → indexOf? ids e.target = some b →
    a ≠ b → (((a, b) ∈ seen ∨ (b, a) ∈ seen) ↔ pre.any e.samePair = true)

/-- An edge with ends that are no nodes joins no pair of them. -/
theorem exists_indexOf?_of_samePair {ids : List String} {e f : Edge} {a b : Nat}
    (ha : indexOf? ids e.source = some a) (hb : indexOf? ids e.target = some b)
    (hpair : e.samePair f = true) :
    ∃ x y, indexOf? ids f.source = some x ∧ indexOf? ids f.target = some y := by
  simp only [Edge.samePair, Bool.or_eq_true, Bool.and_eq_true, beq_iff_eq] at hpair
  rcases hpair with ⟨hsource, htarget⟩ | ⟨hsource, htarget⟩
  · exact ⟨a, b, hsource ▸ ha, htarget ▸ hb⟩
  · exact ⟨b, a, htarget ▸ hb, hsource ▸ ha⟩

section Pairs

variable {ids : List String} (hids : ids.Nodup) {seen : List (Nat × Nat)} {pre : List Edge}
include hids

theorem eq_iff_of_indexOf? {id id' : String} {u v : Nat} (hu : indexOf? ids id = some u)
    (hv : indexOf? ids id' = some v) : id = id' ↔ u = v := by
  rw [indexOf?_eq_some_iff hids] at hu hv
  obtain ⟨hulen, hu⟩ := List.getElem?_eq_some_iff.mp hu
  obtain ⟨hvlen, hv⟩ := List.getElem?_eq_some_iff.mp hv
  rw [← hu, ← hv]
  exact List.Nodup.getElem_inj_iff hids

/-- Edges of the same pair have the same ends, perhaps the other way round. -/
theorem samePair_iff {e f : Edge} {a b x y : Nat}
    (ha : indexOf? ids e.source = some a) (hb : indexOf? ids e.target = some b)
    (hx : indexOf? ids f.source = some x) (hy : indexOf? ids f.target = some y) :
    e.samePair f = true ↔ (a, b) = (x, y) ∨ (b, a) = (x, y) := by
  simp only [Edge.samePair, Bool.or_eq_true, Bool.and_eq_true, beq_iff_eq, Prod.mk.injEq,
    eq_iff_of_indexOf? hids ha hx, eq_iff_of_indexOf? hids hb hy, eq_iff_of_indexOf? hids ha hy,
    eq_iff_of_indexOf? hids hb hx]
  exact or_congr_right and_comm

end Pairs

section Links

variable {g : Graph K} (hids : g.drawnIds.Nodup) {seen : List (Nat × Nat)} {pre : List Edge}
  {e : Edge}
include hids

theorem joinsDrawn_iff :
    g.joinsDrawn e = true ↔ ∃ a b, indexOf? g.drawnIds e.source = some a ∧
      indexOf? g.drawnIds e.target = some b ∧ a ≠ b := by
  have hmem : ∀ id, g.drawnIds.contains id = true ↔ ∃ v, indexOf? g.drawnIds id = some v := by
    intro id
    rw [← Option.isSome_iff_exists, List.contains_iff_mem, Option.isSome_iff_ne_none, ne_eq,
      indexOf?_eq_none_iff, not_not]
  rw [Graph.joinsDrawn, Bool.and_eq_true, Bool.and_eq_true, hmem, hmem, bne_iff_ne, ne_eq]
  constructor
  · rintro ⟨⟨⟨a, ha⟩, b, hb⟩, hne⟩
    exact ⟨a, b, ha, hb, fun hab => hne ((eq_iff_of_indexOf? hids ha hb).mpr hab)⟩
  · rintro ⟨a, b, ha, hb, hab⟩
    exact ⟨⟨⟨a, ha⟩, b, hb⟩, fun heq => hab ((eq_iff_of_indexOf? hids ha hb).mp heq)⟩

/-- Of an edge that adds a link, the pair is added to those seen. -/
theorem linkPairs_cons_of_addsLink (h : SeesPairs g.drawnIds seen pre)
    (hadds : g.addsLink pre e = true) :
    ∃ a b, indexOf? g.drawnIds e.source = some a ∧ indexOf? g.drawnIds e.target = some b ∧
      SeesPairs g.drawnIds ((a, b) :: seen) (pre ++ [e]) ∧
      ∀ es, linkPairs g.drawnIds seen (e :: es) =
        (a, b) :: linkPairs g.drawnIds ((a, b) :: seen) es := by
  rw [Graph.addsLink, Bool.and_eq_true, joinsDrawn_iff hids, Bool.not_eq_true',
    ← Bool.not_eq_true] at hadds
  obtain ⟨⟨a, b, ha, hb, hab⟩, hnew⟩ := hadds
  rw [← h e a b ha hb hab] at hnew
  refine ⟨a, b, ha, hb, fun f x y hx hy hxy => ?_, fun es => ?_⟩
  · rw [List.any_append, Bool.or_eq_true, ← h f x y hx hy hxy, List.any_cons, List.any_nil,
      Bool.or_false, samePair_iff hids hx hy ha hb, List.mem_cons, List.mem_cons]
    tauto
  · rw [linkPairs, ha, hb]
    exact if_neg (not_or.mpr ⟨hab, hnew⟩)

/-- All other edges are passed over. -/
theorem linkPairs_cons_of_not_addsLink (h : SeesPairs g.drawnIds seen pre)
    (hadds : g.addsLink pre e = false) :
    SeesPairs g.drawnIds seen (pre ++ [e]) ∧
      ∀ es, linkPairs g.drawnIds seen (e :: es) = linkPairs g.drawnIds seen es := by
  -- a loop, or an edge of a pair that is linked already
  have hold : ∀ a b, indexOf? g.drawnIds e.source = some a →
      indexOf? g.drawnIds e.target = some b → a = b ∨ (a, b) ∈ seen ∨ (b, a) ∈ seen := by
    intro a b ha hb
    by_cases hab : a = b
    · exact Or.inl hab
    · have hjoins : g.joinsDrawn e = true := (joinsDrawn_iff hids).mpr ⟨a, b, ha, hb, hab⟩
      rw [Graph.addsLink, hjoins, Bool.true_and, Bool.not_eq_false'] at hadds
      exact Or.inr ((h e a b ha hb hab).mpr hadds)
  refine ⟨fun f x y hx hy hxy => ?_, fun es => ?_⟩
  · rw [List.any_append, Bool.or_eq_true, ← h f x y hx hy hxy, List.any_cons, List.any_nil,
      Bool.or_false]
    refine ⟨Or.inl, ?_⟩
    rintro (hseen | hpair)
    · exact hseen
    · obtain ⟨a, b, ha, hb⟩ := exists_indexOf?_of_samePair hx hy hpair
      have hseen := hold a b ha hb
      rcases (samePair_iff hids hx hy ha hb).mp hpair with heq | heq <;> cases heq
      · exact hseen.resolve_left hxy
      · exact (hseen.resolve_left (Ne.symm hxy)).symm
  · rw [linkPairs]
    split
    next a b ha hb => exact if_pos (hold a b ha hb)
    next => rfl

/-- The linked pairs are those of the first edges. -/
theorem map_linkPairs (h : SeesPairs g.drawnIds seen pre) (es : List Edge) :
    (linkPairs g.drawnIds seen es).map (fun p => (g.drawnIds[p.1]?, g.drawnIds[p.2]?)) =
      ((withEarlier pre es).filter fun p => g.addsLink p.1 p.2).map
        fun p => (some p.2.source, some p.2.target) := by
  induction es generalizing seen pre with
  | nil => rfl
  | cons e es ih =>
      rw [withEarlier, List.filter_cons]
      cases hadds : g.addsLink pre e with
      | false =>
          obtain ⟨hsees, hpass⟩ := linkPairs_cons_of_not_addsLink hids h hadds
          rw [hpass, ih hsees]
          rfl
      | true =>
          obtain ⟨a, b, ha, hb, hsees, hlink⟩ := linkPairs_cons_of_addsLink hids h hadds
          rw [hlink, List.map_cons, ih hsees, (indexOf?_eq_some_iff hids).mp ha,
            (indexOf?_eq_some_iff hids).mp hb]
          rfl

/-- The pairs seen after some edges are all that they leave behind. -/
theorem exists_linkPairs_append (h : SeesPairs g.drawnIds seen pre) (es : List Edge) :
    ∃ seen', SeesPairs g.drawnIds seen' (pre ++ es) ∧
      ∀ rest, linkPairs g.drawnIds seen (es ++ rest) =
        linkPairs g.drawnIds seen es ++ linkPairs g.drawnIds seen' rest := by
  induction es generalizing seen pre with
  | nil => exact ⟨seen, by rwa [List.append_nil], fun _ => rfl⟩
  | cons e es ih =>
      rw [List.append_cons]
      cases hadds : g.addsLink pre e with
      | false =>
          obtain ⟨hsees, hpass⟩ := linkPairs_cons_of_not_addsLink hids h hadds
          obtain ⟨seen', hsees', happend⟩ := ih hsees
          refine ⟨seen', hsees', fun rest => ?_⟩
          rw [List.cons_append, hpass, hpass, happend]
      | true =>
          obtain ⟨a, b, -, -, hsees, hlink⟩ := linkPairs_cons_of_addsLink hids h hadds
          obtain ⟨seen', hsees', happend⟩ := ih hsees
          refine ⟨seen', hsees', fun rest => ?_⟩
          rw [List.cons_append, hlink, hlink, happend, List.cons_append]

/-- An edge that adds no link may stand among the others. -/
theorem linkPairs_insert (post : List Edge) (hadds : g.addsLink pre e = false) :
    linkPairs g.drawnIds [] (pre ++ e :: post) = linkPairs g.drawnIds [] (pre ++ post) := by
  have hnil : SeesPairs g.drawnIds [] [] := fun _ _ _ _ _ _ => by simp
  obtain ⟨seen, hsees, happend⟩ := exists_linkPairs_append hids hnil pre
  rw [happend, happend, (linkPairs_cons_of_not_addsLink hids hsees hadds).2]

end Links

end Drawing

end RingLayout
