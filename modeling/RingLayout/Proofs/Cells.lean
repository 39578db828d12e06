import Mathlib.Data.List.Pairwise
import RingLayout.Layout
import RingLayout.Proofs.Links.Views

/-! # Cells of ids

Cells are read in order, and the first fault found is reported: of the nodes, of the edges, and
of the ids that the cells list. Without fault every cell makes a ring of the drawn nodes that it
lists, if there are any.
-/

open scoped List

namespace RingLayout

/-- The ids that cells list in reading order, each with the number of its cell. -/
def listingsFrom (first : Nat) (cells : List (List String)) : List (Nat × String) :=
  (cells.zipIdx first).flatMap fun p => p.1.map (p.2, ·)

namespace Graph

variable {K : Type} (g : Graph K)

/-- What is wrong with listing an id after some others: it is no node, or it is a drawn node that
another cell has listed. Groups may be listed, and an id may be repeated in its cell. -/
def listingFault? (before : List (Nat × String)) (p : Nat × String) : Option GraphError :=
  if p.2 ∉ g.ids then some (.unknownMember p.1 p.2)
  else if p.2 ∈ g.drawnIds then
    (before.find? fun q => q.2 == p.2 && q.1 != p.1).map fun q => .overlappingCells p.2 q.1 p.1
  else none

/-- The first fault of ids that are listed after some others. -/
def listingsFault? (before listings : List (Nat × String)) : Option GraphError :=
  (withEarlier before listings).findSome? fun p => g.listingFault? p.1 p.2

/-- The fault that a graph with cells is refused for. Nodes come before edges, and these before
the cells. -/
def cellsFault? (cells : List (List String)) : Option GraphError :=
  (g.repeatedId?.map .duplicateNode).or
    ((g.looseEdge?.map fun e => .missingEndpoint e.id).or
      (g.listingsFault? [] (listingsFrom 0 cells)))

/-- The drawn nodes that a cell lists, each where it is listed first. -/
def drawnOnce (cell : List String) : List String :=
  (cell.filter fun id => decide (id ∈ g.drawnIds)).eraseDups

/-- The drawn nodes of the cells that have any. -/
def drawnCells (cells : List (List String)) : List (List String) :=
  (cells.map g.drawnOnce).filter fun cell => !cell.isEmpty

theorem drawnCells_cons (cell : List String) (cells : List (List String)) :
    g.drawnCells (cell :: cells) =
      if (g.drawnOnce cell).isEmpty then g.drawnCells cells
      else g.drawnOnce cell :: g.drawnCells cells := by
  rw [drawnCells, List.map_cons, List.filter_cons]
  cases (g.drawnOnce cell).isEmpty <;> rfl

theorem listingsFault?_cons (before : List (Nat × String)) (p : Nat × String)
    (listings : List (Nat × String)) :
    g.listingsFault? before (p :: listings) =
      (g.listingFault? before p).or (g.listingsFault? (before ++ [p]) listings) := by
  rw [listingsFault?, withEarlier, List.findSome?_cons]
  cases g.listingFault? before p <;> rfl

theorem listingsFault?_append (before l l' : List (Nat × String)) :
    g.listingsFault? before (l ++ l') =
      (g.listingsFault? before l).or (g.listingsFault? (before ++ l) l') := by
  induction l generalizing before with
  | nil => simp [listingsFault?, withEarlier]
  | cons p l ih =>
      rw [List.cons_append, listingsFault?_cons, listingsFault?_cons, ih, Option.or_assoc,
        List.append_cons before p l]

end Graph

theorem listingsFrom_cons (first : Nat) (cell : List String) (cells : List (List String)) :
    listingsFrom first (cell :: cells) =
      cell.map (first, ·) ++ listingsFrom (first + 1) cells := rfl

namespace Drawing

variable {K : Type} {g : Graph K}

/-- The owners of nodes are the cells that have listed them. -/
def Owns (g : Graph K) (pre : List (Nat × String)) (owners : List (Nat × Nat)) : Prop :=
  ∀ v c, owners.lookup v = some c ↔ ∃ id, indexOf? g.drawnIds id = some v ∧ (c, id) ∈ pre

section Owns

variable (hids : g.drawnIds.Nodup) {pre : List (Nat × String)} {owners : List (Nat × Nat)}
  {c v : Nat} {id : String}
include hids

theorem Owns.mem_iff (h : Owns g pre owners) (hv : indexOf? g.drawnIds id = some v) :
    owners.lookup v = some c ↔ (c, id) ∈ pre := by
  rw [h v c]
  constructor
  · rintro ⟨id', hid', hmem⟩
    rwa [(eq_iff_of_indexOf? hids hv hid').mpr rfl]
  · exact fun hmem => ⟨id, hv, hmem⟩

/-- A node that has no owner gets one. -/
theorem Owns.cons (h : Owns g pre owners) (hv : indexOf? g.drawnIds id = some v)
    (hnone : owners.lookup v = none) : Owns g (pre ++ [(c, id)]) ((v, c) :: owners) := by
  intro u b
  rw [List.lookup_cons]
  by_cases hu : u = v
  · subst hu
    have hnot : ∀ a, (a, id) ∉ pre := fun a hmem => by
      rw [(h.mem_iff hids hv).mpr hmem] at hnone
      cases hnone
    simp only [beq_self_eq_true, List.mem_append, List.mem_singleton, Prod.mk.injEq,
      Option.some.injEq]
    constructor
    · rintro rfl
      exact ⟨id, hv, Or.inr ⟨rfl, rfl⟩⟩
    · rintro ⟨id', hid', hmem | ⟨rfl, rfl⟩⟩
      · rw [← (eq_iff_of_indexOf? hids hv hid').mpr rfl] at hmem
        exact absurd hmem (hnot b)
      · rfl
  · have hbeq : (u == v) = false := beq_false_of_ne hu
    rw [hbeq]
    dsimp only
    rw [h u b]
    refine exists_congr fun id' => and_congr_right fun hid' => ?_
    have hne : id' ≠ id := fun heq => hu ((eq_iff_of_indexOf? hids hid' hv).mp heq)
    simp [hne]

end Owns

/-- An id that adds no owner. -/
theorem Owns.skip {pre : List (Nat × String)} {owners : List (Nat × Nat)} {c : Nat} {id : String}
    (h : Owns g pre owners) (hid : id ∈ g.drawnIds → (c, id) ∈ pre) :
    Owns g (pre ++ [(c, id)]) owners := by
  intro v b
  rw [h v b]
  refine exists_congr fun id' => and_congr_right fun hid' => ?_
  rw [List.mem_append, List.mem_singleton]
  refine ⟨Or.inl, ?_⟩
  rintro (hmem | heq)
  · exact hmem
  · cases heq
    refine hid ?_
    by_contra hnot
    rw [indexOf?_eq_none_iff.mpr hnot] at hid'
    cases hid'

/-- What a cell adds: the drawn nodes that it lists for the first time. -/
def newIds (g : Graph K) (pre : List (Nat × String)) (c : Nat) (names : List String) :
    List String :=
  (names.filter fun id => decide (id ∈ g.drawnIds ∧ (c, id) ∉ pre)).eraseDups

theorem newIds_of_later {pre : List (Nat × String)} {c : Nat} (hpre : ∀ p ∈ pre, p.1 < c)
    (names : List String) : newIds g pre c names = g.drawnOnce names := by
  rw [newIds, Graph.drawnOnce]
  congr 1
  refine List.filter_congr fun id _ => decide_eq_decide.mpr (and_iff_left fun hmem => ?_)
  exact Nat.lt_irrefl c (hpre _ hmem)

theorem newIds_cons_of_not {pre : List (Nat × String)} {c : Nat} {id : String}
    (hid : id ∈ g.drawnIds → (c, id) ∈ pre) (names : List String) :
    newIds g pre c (id :: names) = newIds g (pre ++ [(c, id)]) c names := by
  have hnot : ¬(id ∈ g.drawnIds ∧ (c, id) ∉ pre) := fun ⟨hdrawn, hnew⟩ => hnew (hid hdrawn)
  rw [newIds, newIds, List.filter_cons_of_neg (by simpa using hnot)]
  congr 1
  refine List.filter_congr fun id' _ => decide_eq_decide.mpr (and_congr_right fun hdrawn => ?_)
  rw [List.mem_append, List.mem_singleton, Prod.mk.injEq]
  refine not_congr ⟨Or.inl, ?_⟩
  rintro (hmem | ⟨-, rfl⟩)
  · exact hmem
  · exact hid hdrawn

theorem newIds_cons_of_new {pre : List (Nat × String)} {c : Nat} {id : String}
    (hdrawn : id ∈ g.drawnIds) (hnew : (c, id) ∉ pre) (names : List String) :
    newIds g pre c (id :: names) = id :: newIds g (pre ++ [(c, id)]) c names := by
  rw [newIds, newIds, List.filter_cons_of_pos (by simpa using ⟨hdrawn, hnew⟩),
    List.eraseDups_cons, List.filter_filter]
  congr 2
  refine List.filter_congr fun id' _ => ?_
  rw [Bool.eq_iff_iff]
  simp only [Bool.and_eq_true, Bool.not_eq_true', beq_eq_false_iff_ne, decide_eq_true_eq,
    List.mem_append, List.mem_singleton, Prod.mk.injEq]
  tauto

/-! ## Reading cells -/

section Reading

variable (hids : g.drawnIds.Nodup) {pre : List (Nat × String)} {owners : List (Nat × Nat)}
include hids

/-- A node is refused when it has another owner. -/
theorem Owns.listingFault?_eq (h : Owns g pre owners) {c v : Nat} {id : String}
    (hv : indexOf? g.drawnIds id = some v) :
    g.listingFault? pre (c, id) = (owners.lookup v).bind fun first =>
      if first = c then none else some (.overlappingCells id first c) := by
  have hdrawn : id ∈ g.drawnIds := by
    by_contra hnot
    rw [indexOf?_eq_none_iff.mpr hnot] at hv
    cases hv
  have hid : id ∈ g.ids := g.drawnIds_sublist.subset hdrawn
  rw [Graph.listingFault?, if_neg (not_not_intro hid), if_pos hdrawn]
  cases hfind : pre.find? fun q => q.2 == id && q.1 != c with
  | none =>
      rw [List.find?_eq_none] at hfind
      cases hlookup : owners.lookup v with
      | none => rfl
      | some first =>
          have hfirst := hfind _ ((h.mem_iff hids hv).mp hlookup)
          have heq : first = c := by simpa using hfirst
          rw [Option.bind_some, if_pos heq]
          rfl
  | some q =>
      have hq := List.find?_some hfind
      rw [Bool.and_eq_true, beq_iff_eq, bne_iff_ne] at hq
      obtain ⟨rfl, hne⟩ := hq
      have hlookup := (h.mem_iff hids hv).mpr (List.mem_of_find?_eq_some hfind)
      rw [hlookup, Option.bind_some, if_neg hne]
      rfl

/-- Reading a cell stops at its first fault, or it ends with the new drawn nodes of the cell. -/
theorem readCell_cases (h : Owns g pre owners) (c : Nat) (names : List String) :
    (∃ err, g.listingsFault? pre (names.map (c, ·)) = some err ∧
        readCell g g.drawnIds c names owners = .error err) ∨
      g.listingsFault? pre (names.map (c, ·)) = none ∧
        ∃ members owners', readCell g g.drawnIds c names owners = .ok (members, owners') ∧
          Owns g (pre ++ names.map (c, ·)) owners' ∧
          members.map (g.drawnIds[·]?) = (newIds g pre c names).map some := by
  induction names generalizing pre owners with
  | nil => exact Or.inr ⟨rfl, [], owners, rfl, by rwa [List.map_nil, List.append_nil], rfl⟩
  | cons id names ih =>
      rw [List.map_cons, g.listingsFault?_cons,
        List.append_cons pre (c, id) (names.map (c, ·)), readCell]
      -- an id that is passed over leaves the owners and the new ids as they are
      have hpass := fun hid : id ∈ g.drawnIds → (c, id) ∈ pre =>
        newIds_cons_of_not hid names ▸ ih (h.skip hid)
      cases hv : indexOf? g.drawnIds id with
      | none =>
          have hnot : id ∉ g.drawnIds := indexOf?_eq_none_iff.mp hv
          dsimp only
          rw [g.any_isGroup_node? hnot]
          by_cases hid : id ∈ g.ids
          · have hfault : g.listingFault? pre (c, id) = none := by
              rw [Graph.listingFault?, if_neg (not_not_intro hid), if_neg hnot]
            rw [hfault, if_pos (decide_eq_true hid), Option.none_or]
            exact hpass fun hdrawn => absurd hdrawn hnot
          · have hfault : g.listingFault? pre (c, id) = some (.unknownMember c id) := by
              rw [Graph.listingFault?, if_pos hid]
            rw [hfault, if_neg (by simpa using hid), Option.some_or]
            exact Or.inl ⟨_, rfl, rfl⟩
      | some v =>
          have hdrawn : id ∈ g.drawnIds := by
            by_contra hnot
            rw [indexOf?_eq_none_iff.mpr hnot] at hv
            cases hv
          rw [h.listingFault?_eq hids hv]
          dsimp only
          cases hlookup : owners.lookup v with
          | some first =>
              rw [Option.bind_some]
              dsimp only
              by_cases hfirst : first = c
              · rw [if_pos hfirst, if_pos hfirst, Option.none_or]
                exact hpass fun _ => (h.mem_iff hids hv).mp (hfirst ▸ hlookup)
              · rw [if_neg hfirst, if_neg hfirst, Option.some_or]
                exact Or.inl ⟨_, rfl, rfl⟩
          | none =>
              have hnew : (c, id) ∉ pre := fun hmem => by
                rw [(h.mem_iff hids hv).mpr hmem] at hlookup
                cases hlookup
              rw [Option.bind_none, Option.none_or]
              dsimp only
              rcases ih (h.cons hids hv hlookup) with ⟨err, hfault, herr⟩ | ⟨hfault, hread⟩
              · rw [herr]
                exact Or.inl ⟨err, hfault, rfl⟩
              · obtain ⟨members, owners', hok, howns, hmembers⟩ := hread
                rw [hok]
                refine Or.inr ⟨hfault, v :: members, owners', rfl, howns, ?_⟩
                rw [newIds_cons_of_new hdrawn hnew, List.map_cons, List.map_cons, hmembers,
                  (indexOf?_eq_some_iff hids).mp hv]

/-- Reading cells stops at the first fault, or it ends with the drawn nodes of the cells. -/
theorem readCells_cases (h : Owns g pre owners) (c : Nat) (hpre : ∀ p ∈ pre, p.1 < c)
    (cells : List (List String)) :
    (∃ err, g.listingsFault? pre (listingsFrom c cells) = some err ∧
        readCells g g.drawnIds c cells owners = .error err) ∨
      g.listingsFault? pre (listingsFrom c cells) = none ∧
        ∃ cs, readCells g g.drawnIds c cells owners = .ok cs ∧
          cs.map (·.map (g.drawnIds[·]?)) = (g.drawnCells cells).map (·.map some) := by
  induction cells generalizing pre owners c with
  | nil => exact Or.inr ⟨rfl, [], rfl, rfl⟩
  | cons names cells ih =>
      rw [listingsFrom_cons, g.listingsFault?_append, readCells]
      rcases readCell_cases hids h c names with ⟨err, hfault, herr⟩ | ⟨hfault, hread⟩
      · rw [hfault, herr]
        exact Or.inl ⟨err, rfl, rfl⟩
      · obtain ⟨members, owners', hok, howns, hmembers⟩ := hread
        have hlater : ∀ p ∈ pre ++ names.map (c, ·), p.1 < c + 1 := by
          intro p hp
          rcases List.mem_append.mp hp with hp | hp
          · exact Nat.lt_succ_of_lt (hpre p hp)
          · obtain ⟨id, -, rfl⟩ := List.mem_map.mp hp
            exact Nat.lt_succ_self c
        rw [newIds_of_later hpre] at hmembers
        rw [hfault, hok, Option.none_or]
        rcases ih howns (c + 1) hlater with ⟨err, hrest, herr⟩ | ⟨hrest, cs, hcs, hlists⟩
        · refine Or.inl ⟨err, hrest, ?_⟩
          change (readCells g g.drawnIds (c + 1) cells owners' >>= _) = _
          rw [herr]
          rfl
        · refine Or.inr ⟨hrest, if members.isEmpty then cs else members :: cs, ?_, ?_⟩
          · change (readCells g g.drawnIds (c + 1) cells owners' >>= _) = _
            rw [hcs]
            rfl
          · have hempty : members.isEmpty = (g.drawnOnce names).isEmpty := by
              simpa using congrArg List.isEmpty hmembers
            rw [g.drawnCells_cons, hempty]
            cases (g.drawnOnce names).isEmpty with
            | true => exact hlists
            | false =>
                change _ :: _ = _ :: _
                exact congrArg₂ List.cons hmembers hlists

end Reading

end Drawing

/-! ## Faults -/

theorem mem_listingsFrom_iff {cells : List (List String)} {p : Nat × String} :
    p ∈ listingsFrom 0 cells ↔ p.2 ∈ cells.getD p.1 [] := by
  obtain ⟨c, id⟩ := p
  rw [listingsFrom, List.mem_flatMap, List.getD_eq_getElem?_getD]
  constructor
  · rintro ⟨⟨cell, b⟩, hcell, hmem⟩
    obtain ⟨_, hid, heq⟩ := List.mem_map.mp hmem
    cases heq
    rwa [List.mem_zipIdx_iff_getElem?.mp hcell]
  · intro hid
    cases hcell : cells[c]? with
    | none =>
        rw [hcell] at hid
        cases hid
    | some cell =>
        rw [hcell] at hid
        exact ⟨(cell, c), List.mem_zipIdx_iff_getElem?.mpr hcell, List.mem_map_of_mem hid⟩

namespace Graph

variable {K : Type} (g : Graph K)

theorem listingFault?_eq_none_iff {before : List (Nat × String)} {p : Nat × String} :
    g.listingFault? before p = none ↔
      p.2 ∈ g.ids ∧ ∀ q ∈ before, p.2 ∈ g.drawnIds → q.2 = p.2 → q.1 = p.1 := by
  rw [listingFault?]
  by_cases hid : p.2 ∈ g.ids
  · by_cases hdrawn : p.2 ∈ g.drawnIds
    · simp [hid, hdrawn, List.find?_eq_none]
    · simp [hid, hdrawn]
  · simp [hid]

theorem listingsFault?_eq_none_iff {cells : List (List String)} :
    g.listingsFault? [] (listingsFrom 0 cells) = none ↔
      (∀ c, ∀ id ∈ cells.getD c [], id ∈ g.ids) ∧
        ∀ b c id, b ≠ c → id ∈ cells.getD b [] → id ∈ cells.getD c [] → id ∉ g.drawnIds := by
  rw [listingsFault?, List.findSome?_eq_none_iff]
  simp only [listingFault?_eq_none_iff]
  rw [forall_withEarlier_iff (fun p : Nat × String => p.2 ∈ g.ids)
    fun q p => p.2 ∈ g.drawnIds → q.2 = p.2 → q.1 = p.1]
  -- whether two listings clash does not depend on their order
  have : Std.Symm fun q p : Nat × String => p.2 ∈ g.drawnIds → q.2 = p.2 → q.1 = p.1 :=
    ⟨fun q p h hdrawn heq => (h (heq ▸ hdrawn) heq.symm).symm⟩
  constructor
  · rintro ⟨hnames, hpairs⟩
    refine ⟨fun c id hid => (hnames (c, id) (mem_listingsFrom_iff.mpr hid)).1, ?_⟩
    intro b c id hne hb hc hdrawn
    exact hne (hpairs.forall_of_forall (fun _ _ _ _ => rfl)
      (mem_listingsFrom_iff (p := (b, id)).mpr hb) (mem_listingsFrom_iff (p := (c, id)).mpr hc)
      hdrawn rfl)
  · rintro ⟨hnames, hcells⟩
    refine ⟨fun p hp => ⟨hnames p.1 p.2 (mem_listingsFrom_iff.mp hp), fun _ hb => ?_⟩, ?_⟩
    · cases hb
    · refine List.pairwise_of_forall_mem_list fun q hq p hp hdrawn heq => ?_
      by_contra hne
      rw [mem_listingsFrom_iff] at hq hp
      exact hcells q.1 p.1 p.2 hne (heq ▸ hq) hp hdrawn

/-- When a graph with cells is refused. -/
theorem cellsFault?_isSome_iff {cells : List (List String)} :
    (g.cellsFault? cells).isSome ↔
      ¬g.ids.Nodup ∨ (∃ e ∈ g.edges, e.source ∉ g.ids ∨ e.target ∉ g.ids) ∨
        (∃ c, ∃ id ∈ cells.getD c [], id ∉ g.ids) ∨
        ∃ b c id, b ≠ c ∧ id ∈ cells.getD b [] ∧ id ∈ cells.getD c [] ∧ id ∈ g.drawnIds := by
  have hnone : g.cellsFault? cells = none ↔ g.ids.Nodup ∧
      (∀ e ∈ g.edges, e.source ∈ g.ids ∧ e.target ∈ g.ids) ∧
      (∀ c, ∀ id ∈ cells.getD c [], id ∈ g.ids) ∧
        ∀ b c id, b ≠ c → id ∈ cells.getD b [] → id ∈ cells.getD c [] → id ∉ g.drawnIds := by
    rw [← g.repeatedId?_eq_none_iff, ← g.looseEdge?_eq_none_iff, ← g.listingsFault?_eq_none_iff,
      cellsFault?, Option.or_eq_none_iff, Option.or_eq_none_iff, Option.map_eq_none_iff,
      Option.map_eq_none_iff]
  rw [← Option.ne_none_iff_isSome, Ne, hnone]
  simp only [not_and_or, not_forall, exists_prop, not_not]

end Graph

namespace Drawing

variable {K : Type} [Scalar K] {g : Graph K} {o : Options K} {cells : List (List String)}

/-- A graph with cells is refused for its fault, or it is drawn with the rings that its cells
make. -/
theorem build_cases (h : o.clustering = .cells cells) :
    (∃ err, g.cellsFault? cells = some err ∧ build g o = .error err) ∨
      g.cellsFault? cells = none ∧ ∃ cs, Disjoint g.drawnNodes.length cs ∧
        build g o = .ok (ofClusters g o cs) ∧
        cs.map (·.map (g.drawnIds[·]?)) = (g.drawnCells cells).map (·.map some) := by
  rw [Graph.cellsFault?, build, g.validate_eq, h]
  cases hnode : g.repeatedId? with
  | some id => exact Or.inl ⟨_, rfl, rfl⟩
  | none =>
      cases hedge : g.looseEdge? with
      | some e => exact Or.inl ⟨_, rfl, rfl⟩
      | none =>
          have hids := (g.repeatedId?_eq_none_iff.mp hnode).sublist g.drawnIds_sublist
          have hnil : Owns g [] [] := fun v c => by simp
          rw [Option.map_none, Option.map_none, Option.none_or, Option.none_or]
          change (∃ err, _ ∧ (readCells g g.drawnIds 0 cells [] >>= _) = _) ∨
            _ ∧ ∃ cs, _ ∧ (readCells g g.drawnIds 0 cells [] >>= _) = _ ∧ _
          rcases readCells_cases hids hnil 0 (by simp) cells with
            ⟨err, hfault, herr⟩ | ⟨hfault, cs, hcs, hlists⟩
          · rw [herr]
            exact Or.inl ⟨err, hfault, rfl⟩
          · have hclusters : clusters g (.cells cells) = .ok cs := hcs
            have hdisjoint := clusters_disjoint hclusters
            rw [hcs]
            exact Or.inr ⟨hfault, cs, hdisjoint, rfl, hlists⟩

/-- How a graph is drawn with rings of cells, or why it is not. -/
structure ReadsCells (g : Graph K) (o : Options K) (cells : List (List String)) : Prop where
  error_iff : ∀ err, build g o = .error err ↔ g.cellsFault? cells = some err
  create_error_iff : ∀ err, Run.create g o = .error err ↔ g.cellsFault? cells = some err
  compute_error_iff : ∀ clock err,
    Layout.compute g o clock = .error err ↔ g.cellsFault? cells = some err
  withProgress_error_iff : ∀ (σ : Type) clock (observe : σ → Layout K → σ) seen err,
    Layout.withProgress g o clock observe seen = .error err ↔ g.cellsFault? cells = some err
  /-- A graph is refused when an id repeats, an edge lacks an end, a listed id is no node, or two
  cells list a drawn node. -/
  refused_iff : (∃ err, build g o = .error err) ↔
    ¬g.ids.Nodup ∨ (∃ e ∈ g.edges, e.source ∉ g.ids ∨ e.target ∉ g.ids) ∨
      (∃ c, ∃ id ∈ cells.getD c [], id ∉ g.ids) ∨
      ∃ b c id, b ≠ c ∧ id ∈ cells.getD b [] ∧ id ∈ cells.getD c [] ∧ id ∈ g.drawnIds
  /-- The rings have the drawn nodes of the cells that have any. -/
  rings_eq : ∀ d, build g o = .ok d →
    d.rings.toList.map (fun r => r.order.map fun v => (d.body v).id) =
      (g.drawnCells cells).map (·.map some)
  rings_disjoint : ∀ d, build g o = .ok d →
    (d.rings.toList.map (·.order)).Pairwise List.Disjoint

theorem map_order_ofClusters {α : Type} (f : List Nat → α) (cs : List (List Nat)) :
    (ofClusters g o cs).rings.toList.map (fun r => f r.order) = cs.map f := by
  have hfst := congrArg (List.map f) (List.zipIdx_map_fst 0 cs)
  rw [List.map_map] at hfst
  rw [← hfst]
  simp only [ofClusters, List.map_map]
  rfl

theorem map_eq_error_iff {ε α β : Type} {x : Except ε α} {f : α → β} {err : ε} :
    x.map f = .error err ↔ x = .error err := by
  cases x with
  | error err' => exact ⟨fun h => by cases h; rfl, fun h => by cases h; rfl⟩
  | ok a => exact ⟨nofun, nofun⟩

/-- A graph with cells is laid out unless it has a fault, and its rings are those of the cells. -/
theorem readsCells_build (h : o.clustering = .cells cells) : ReadsCells g o cells := by
  have herror : ∀ err, build g o = .error err ↔ g.cellsFault? cells = some err := by
    intro err
    rcases build_cases (g := g) h with ⟨err', hfault, hbuild⟩ | ⟨hfault, cs, -, hbuild, -⟩
    · rw [hfault, hbuild, Except.error.injEq, Option.some.injEq]
    · rw [hfault, hbuild]
      exact ⟨nofun, nofun⟩
  have hok : ∀ d, build g o = .ok d → ∃ cs, Disjoint g.drawnNodes.length cs ∧
      d = ofClusters g o cs ∧
      cs.map (·.map (g.drawnIds[·]?)) = (g.drawnCells cells).map (·.map some) := by
    intro d hd
    rcases build_cases (g := g) h with ⟨err, -, hbuild⟩ | ⟨-, cs, hcs, hbuild, hlists⟩
    · rw [hd] at hbuild
      cases hbuild
    · rw [hd] at hbuild
      cases hbuild
      exact ⟨cs, hcs, rfl, hlists⟩
  constructor
  case error_iff => exact herror
  -- all of a layout but the drawing goes through without an error
  case create_error_iff => exact fun err => map_eq_error_iff.trans (herror err)
  case compute_error_iff =>
    exact fun clock err => map_eq_error_iff.trans (map_eq_error_iff.trans (herror err))
  case withProgress_error_iff =>
    exact fun σ clock observe seen err =>
      map_eq_error_iff.trans (map_eq_error_iff.trans (herror err))
  case refused_iff =>
    rw [← g.cellsFault?_isSome_iff, Option.isSome_iff_exists]
    exact exists_congr herror
  case rings_eq =>
    intro d hd
    obtain ⟨cs, hcs, rfl, hlists⟩ := hok d hd
    rw [map_order_ofClusters fun members => members.map _, ← hlists]
    refine List.map_congr_left fun members hmembers => List.map_congr_left fun v hv => ?_
    exact id_ofClusters (hcs.lt v (List.mem_flatten_of_mem hmembers hv))
  case rings_disjoint =>
    intro d hd
    obtain ⟨cs, hcs, rfl, -⟩ := hok d hd
    rw [map_order_ofClusters fun members => members, List.map_id']
    exact (List.nodup_flatten.mp hcs.nodup).2

theorem readsCells_build_twoRings : twoRings.clustering = .cells [["a", "b"], ["p", "d", "c"]] ∧
    ReadsCells repeatedEdges twoRings [["a", "b"], ["p", "d", "c"]] :=
  ⟨rfl, readsCells_build rfl⟩

/-- Groups and empty cells have numbers like all others. -/
example : build repeatedEdges { twoRings with
      clustering := .cells [["p", "a"], [], ["p", "b", "b", "a", "x"]] } =
    .error (.overlappingCells "a" 0 2) := rfl

end Drawing

end RingLayout
