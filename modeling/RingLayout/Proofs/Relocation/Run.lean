import RingLayout.Proofs.Relocation

/-! # Relocation in a drawing

Rings are relocated in turn, and what becomes of one of them does not touch the others. So each
ring finds its members, its chords and its links as they were in the beginning, and the members
that have gone inside are counted over all rings.
-/

namespace RingLayout.Drawing

variable {K : Type} [Scalar K] {members : Nat → List Nat} {d d' e : Drawing K} {c : Nat}

/-- The members that have gone inside a ring. -/
def entered (d d' : Drawing K) (c : Nat) : List Nat :=
  (d'.ring c).inside.drop (d.ring c).inside.length

/-- A ring that is left alone, as are all links. -/
structure LeftAlone (c : Nat) (d d' : Drawing K) : Prop extends SameOn c d d' where
  links_eq : d'.links = d.links
  crossingCount_eq : d'.crossingCount c = d.crossingCount c

namespace LeftAlone

theorem refl (c : Nat) (d : Drawing K) : LeftAlone c d d := ⟨.refl c d, rfl, rfl⟩

theorem trans (h : LeftAlone c d d') (h' : LeftAlone c d' e) : LeftAlone c d e :=
  ⟨h.toSameOn.trans h'.toSameOn, h'.links_eq.trans h.links_eq,
    h'.crossingCount_eq.trans h.crossingCount_eq⟩

theorem entered_left (h : LeftAlone c d d') : d.entered e c = d'.entered e c := by
  rw [entered, entered, h.ring_eq]

theorem moveBudget_eq (h : LeftAlone c d d') (share : K) :
    moveBudget share d' c = moveBudget share d c := by
  rw [moveBudget, moveBudget, h.ring_eq]

end LeftAlone

namespace Relocates

variable {budget : Nat} {moved : List Nat}

theorem entered_eq (h : Relocates c budget moved d d') : d.entered d' c = moved := by
  rw [entered, h.inside_eq, List.drop_left]

/-- What happens elsewhere before the members of a ring move makes no difference. -/
theorem of_left (h : Relocates c budget moved d' e) (hleft : LeftAlone c d d') :
    Relocates c budget moved d e where
  inside_eq := hleft.ring_eq ▸ h.inside_eq
  order_eq := hleft.ring_eq ▸ h.order_eq
  mem_order := hleft.ring_eq ▸ h.mem_order
  nodup := h.nodup
  length_le := h.length_le
  min_le_length := hleft.ring_eq ▸ h.min_le_length
  isInner := by simpa only [link, hleft.links_eq] using h.isInner
  together := by
    simpa only [hleft.ring_eq, neighborsTogether_of_links_eq hleft.links_eq] using h.together
  crossingCount_le := hleft.crossingCount_eq ▸ h.crossingCount_le
  sameOn hnil := hleft.toSameOn.trans (h.sameOn hnil)

/-- Nor does what happens elsewhere afterwards. -/
theorem of_right (h : Relocates c budget moved d d') (hright : LeftAlone c d' e) :
    Relocates c budget moved d e where
  inside_eq := hright.ring_eq ▸ h.inside_eq
  order_eq := hright.ring_eq ▸ h.order_eq
  mem_order := h.mem_order
  nodup := h.nodup
  length_le := h.length_le
  min_le_length := hright.ring_eq ▸ h.min_le_length
  isInner := h.isInner
  together := h.together
  crossingCount_le := hright.crossingCount_eq ▸ h.crossingCount_le
  sameOn hnil := (h.sameOn hnil).trans hright.toSameOn

end Relocates

/-! ## Ring by ring -/

/-- Of two drawings with a count each, the second has come of the first by relocation on rings. -/
structure RelocatesOn (share : K) (rings : List Nat) (state state' : Nat × Drawing K) : Prop where
  /-- Whoever has gone inside is counted. -/
  count_eq : state'.1 =
    state.1 + (rings.map fun c => (state.2.entered state'.2 c).length).sum
  relocates : ∀ c ∈ rings, Relocates c (moveBudget share state.2 c)
    (state.2.entered state'.2 c) state.2 state'.2
  leftAlone : ∀ c, c ∉ rings → LeftAlone c state.2 state'.2

/-- One ring is relocated before the others. -/
theorem RelocatesOn.cons {share : K} {b : Nat} {rings moved : List Nat}
    {state state' state'' : Nat × Drawing K} (hb : b ∉ rings)
    (hcount : state'.1 = state.1 + moved.length)
    (hmoved : Relocates b (moveBudget share state.2 b) moved state.2 state'.2)
    (hothers : ∀ c, c ≠ b → LeftAlone c state.2 state'.2)
    (h : RelocatesOn share rings state' state'') :
    RelocatesOn share (b :: rings) state state'' := by
  have hfirst := hmoved.of_right (h.leftAlone b hb)
  have hne : ∀ c ∈ rings, c ≠ b := fun c hc heq => hb (heq ▸ hc)
  constructor
  case count_eq =>
    have hsum : rings.map (fun c => (state.2.entered state''.2 c).length) =
        rings.map fun c => (state'.2.entered state''.2 c).length :=
      List.map_congr_left fun c hc => by rw [(hothers c (hne c hc)).entered_left]
    rw [List.map_cons, List.sum_cons, hfirst.entered_eq, hsum, h.count_eq, hcount, Nat.add_assoc]
  case relocates =>
    refine List.forall_mem_cons.mpr ⟨hfirst.entered_eq.symm ▸ hfirst, fun c hc => ?_⟩
    have hleft := hothers c (hne c hc)
    rw [hleft.entered_left, ← hleft.moveBudget_eq]
    exact (h.relocates c hc).of_left hleft
  case leftAlone =>
    intro c hc
    rw [List.mem_cons, not_or] at hc
    exact (hothers c hc.1).trans (h.leftAlone c hc.2)

theorem leftAlone_relocateOnRing (share separation : K) (state : Nat × Drawing K)
    (hd : state.2.skeleton.Sound members) {b : Nat} (hne : c ≠ b) :
    LeftAlone c state.2 (relocateOnRing share separation state b).2 := by
  have hsame := (local_relocateOnRing share separation state.1 hd b).sameOn hne
  have hlinks := links_relocateOnRing share separation state b
  have hsound := (secludes_relocateOnRing share separation state b hd).sound
  exact ⟨hsame, hlinks, hsame.crossingCount_eq hd.seated hsound.seated hlinks⟩

theorem relocatesOn_foldl (share separation : K) {rings : List Nat} (hrings : rings.Nodup)
    {state : Nat × Drawing K} (h : LinksListed state.2) (hd : state.2.skeleton.Sound members) :
    RelocatesOn share rings state (rings.foldl (relocateOnRing share separation) state) := by
  induction rings generalizing state with
  | nil => exact ⟨rfl, by simp, fun c _ => .refl c _⟩
  | cons b rest ih =>
      obtain ⟨hb, hrest⟩ := List.nodup_cons.mp hrings
      have hsecludes := secludes_relocateOnRing share separation state b hd
      obtain ⟨moved, hcount, hmoved⟩ :=
        exists_relocates_relocateOnRing h hd share separation state.1 b
      exact .cons hb hcount hmoved
        (fun c hne => leftAlone_relocateOnRing share separation state hd hne)
        (ih hrest (h.of_evolves hsecludes.toEvolves) hsecludes.sound)

/-! ## Any drawing -/

/-- What relocation makes of a drawing, and how many members it counts. -/
structure Relocated (share : K) (d : Drawing K) (result : Nat × Drawing K) : Prop where
  count_eq : result.1 = (d.ringNumbers.map fun c => (d.entered result.2 c).length).sum
  relocates : ∀ c ∈ d.ringNumbers,
    Relocates c (moveBudget share d c) (d.entered result.2 c) d result.2

/-- Whatever has been done to a new drawing, relocation moves members inside that have links within
their ring only, whose neighbours on the circle stand next to each other and who take a crossing
along, at most the given share of a ring and none of the last three. -/
theorem relocated_relocateInside {g : Graph K} {o : Options K} {start : Drawing K}
    (h : build g o = .ok start) (ops : List (Operation K)) (share separation : K) :
    Relocated share (Operation.run ops start)
      ((Operation.run ops start).relocateInside share separation) := by
  have hevolves := Operation.evolves_run (sound_build h) ops
  have hlinked := (linksListed_build h).of_evolves hevolves
  generalize Operation.run ops start = d at *
  have hall : RelocatesOn share d.ringNumbers (0, d) (d.relocateInside share separation) :=
    relocatesOn_foldl share separation List.nodup_range hlinked hevolves.sound
  exact ⟨hall.count_eq.trans (Nat.zero_add _), hall.relocates⟩

/-- One of four members moves inside, and the links do not cross any more. -/
theorem relocated_relocateInside_crossedPairs :
    ∃ start : Drawing Float, build crossedPairs oneRing = .ok start ∧
      start.crossingCount 0 = 1 ∧ (start.relocateInside 0.25 20).1 = 1 ∧
      Relocated 0.25 start (start.relocateInside 0.25 20) :=
  ⟨_, build_crossedPairs, by decide +kernel, by decide +kernel,
    relocated_relocateInside build_crossedPairs [] 0.25 20⟩

end RingLayout.Drawing
