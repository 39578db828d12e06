import RingLayout.Proofs.Aspects
import RingLayout.Proofs.AsBuilt

/-! # Who goes inside

A member goes inside its ring only if no link leads from it out of the ring. Whoever is inside a
ring of a run has therefore inner links only, as the drawing was built.
-/

namespace RingLayout

variable {K : Type}

/-- The ring that a body belongs to, and whether it is inside. -/
def Body.standing (b : Body K) : Option Nat × Bool := (b.role.ring?, b.role.isInside)

theorem Body.standing_eq_inside_iff {b : Body K} {c : Nat} :
    b.standing = (some c, true) ↔ b.role = .inside c := by
  unfold standing
  cases b.role <;> simp [Role.ring?, Role.isInside]

theorem Role.isInside_iff {r : Role K} : r.isInside = true ↔ ∃ c, r = .inside c := by
  cases r <;> simp [isInside]

namespace Drawing

variable [Scalar K]

theorem steady_standing : Steady (K := K) Body.standing where
  box_eq _ _ := rfl
  forces_eq _ := rfl
  seat_eq b angle index := by
    simp only [Body.standing]
    cases b.role <;> rfl

omit [Scalar K] in
theorem hidesRules_standing : HidesRules (K := K) Body.standing where
  next_eq b allowed := by
    simp only [Body.standing]
    cases b.role <;> rfl
  previous_eq b allowed := by
    simp only [Body.standing]
    cases b.role <;> rfl

omit [Scalar K] in
theorem hidesPulls_standing : HidesPulls (K := K) Body.standing := by
  intro b pull
  simp only [Body.standing]
  cases b.role <;> rfl

end Drawing

/-! ## Going inside -/

namespace Skeleton

variable {members : Nat → List Nat} {s t u : Skeleton}

/-- A skeleton evolves, and whoever goes inside has no outer links. -/
structure Secludes (members : Nat → List Nat) (s t : Skeleton) : Prop
    extends Evolves members s t where
  links?_of_inside : ∀ v c, t.place v = .inside c → s.place v = .inside c ∨
    ∃ inner, (s.place v).links? = some (inner, [])

namespace Secludes

theorem refl (h : s.Sound members) : Secludes members s s :=
  ⟨.refl h, fun _ _ hv => Or.inl hv⟩

/-- A skeleton that evolves while nobody goes inside. -/
theorem of_evolves (h : Evolves members s t)
    (hinside : ∀ v c, t.place v = .inside c → s.place v = .inside c) : Secludes members s t :=
  ⟨h, fun v c hv => Or.inl (hinside v c hv)⟩

theorem trans (hst : Secludes members s t) (htu : Secludes members t u) :
    Secludes members s u where
  toEvolves := hst.toEvolves.trans htu.toEvolves
  links?_of_inside v c hv := by
    rcases htu.links?_of_inside v c hv with hbefore | ⟨inner, hlinks⟩
    · exact hst.links?_of_inside v c hbefore
    · exact Or.inr ⟨inner, hst.links v _ hlinks⟩

/-- What holds for every step of a loop holds for the loop. -/
theorem foldl {σ α : Type} (part : σ → Skeleton) {step : σ → α → σ}
    (hstep : ∀ a x, (part a).Sound members → Secludes members (part a) (part (step a x)))
    (l : List α) (a : σ) (h : (part a).Sound members) :
    Secludes members (part a) (part (l.foldl step a)) := by
  induction l generalizing a with
  | nil => exact refl h
  | cons x l ih =>
      have hfirst := hstep a x h
      exact hfirst.trans (ih (step a x) hfirst.sound)

end Secludes

theorem Sound.secludes_takeInside (h : s.Sound members) {c i v : Nat} {inner : List Nat}
    (hv : (s.ring c).order[i]? = some v) (hlinks : (s.place v).links? = some (inner, [])) :
    Secludes members s (s.takeInside c i v) where
  toEvolves := h.evolves_takeInside hv
  links?_of_inside u b hu := by
    by_cases huv : u = v
    · exact Or.inr ⟨inner, huv ▸ hlinks⟩
    · exact Or.inl ((h.seated.inside_iff_takeInside huv).mp hu)

end Skeleton

namespace Drawing

open Skeleton (Evolves Secludes)

variable [Scalar K] {members : Nat → List Nat} {d d' : Drawing K}

/-- Where nobody goes inside, nobody with outer links does. -/
theorem secludes_of_alike (h : Evolves members d.skeleton d'.skeleton)
    (halike : Alike Body.standing d d') : Secludes members d.skeleton d'.skeleton := by
  refine .of_evolves h fun v c hv => ?_
  have hrole : (d'.body v).role = .inside c := Role.place_eq_inside_iff.mp hv
  rw [← Body.standing_eq_inside_iff, halike.view_eq, Body.standing_eq_inside_iff] at hrole
  exact Role.place_eq_inside_iff.mpr hrole

theorem canMoveInside_iff {c v : Nat} {chords : List Chord} : d.canMoveInside c chords v = true ↔
    ∃ s, (d.body v).seat? = some s ∧ s.outerLinks = [] ∧ d.seatedNeighbors v ≠ [] ∧
      tangledAt chords s.index = true ∧
      CyclicOrder.neighborRuns (d.ring c).order v (d.seatedNeighbors v) ≤ 1 := by
  unfold canMoveInside
  cases (d.body v).seat? <;> simp [and_assoc]

/-- A member that may move inside sits on its ring, and none of its links leads out of it. -/
theorem links?_of_canMoveInside {c : Nat} {chords : List Chord} {v : Nat}
    (h : d.canMoveInside c chords v = true) :
    ∃ inner, (d.skeleton.place v).links? = some (inner, []) := by
  obtain ⟨s, hs, houter, -⟩ := canMoveInside_iff.mp h
  change ∃ inner, (d.body v).role.place.links? = some (inner, [])
  rw [links?_place, hs, Option.map_some, houter]
  exact ⟨s.innerLinks, rfl⟩

/-- A member that moves inside is put somewhere else than before. -/
theorem secludes_moveInside (hd : d.skeleton.Sound members) {c v : Nat}
    (hv : d.firstToMoveInside? c = some v) (target : Point K) :
    Secludes members d.skeleton ((d.moveInside c v).setCenter v target).skeleton := by
  have hmem : v ∈ (d.ring c).order := List.mem_of_find?_eq_some hv
  obtain ⟨inner, hlinks⟩ := links?_of_canMoveInside (List.find?_some hv)
  rw [skeleton_setCenter, skeleton_moveInside hd.seated ((CyclicOrder.idxOf?_eq_iff
    (hd.seated.order_nodup c)).mpr (List.getElem?_idxOf hmem))]
  exact hd.secludes_takeInside (List.getElem?_idxOf hmem) hlinks

theorem secludes_moveMembersInside (c budget : Nat) (hd : d.skeleton.Sound members) :
    Secludes members d.skeleton (moveMembersInside c budget d).2.skeleton := by
  induction budget generalizing d with
  | zero => exact .refl hd
  | succ budget ih =>
      rw [moveMembersInside]
      split
      · split
        next => exact .refl hd
        next v hv =>
          have hmoved := secludes_moveInside hd hv (d.insideTarget c v)
          exact hmoved.trans (ih hmoved.sound)
      · exact .refl hd

theorem secludes_relocateOnRing (share separation : K) (state : Nat × Drawing K) (c : Nat)
    (hd : state.2.skeleton.Sound members) :
    Secludes members state.2.skeleton (relocateOnRing share separation state c).2.skeleton := by
  rw [skeleton_relocateOnRing hd.seated]
  exact secludes_moveMembersInside c _ hd

theorem secludes_relocateInside (hd : d.skeleton.Sound members) (share separation : K) :
    Secludes members d.skeleton (d.relocateInside share separation).2.skeleton :=
  Secludes.foldl (fun state : Nat × Drawing K => state.2.skeleton)
    (secludes_relocateOnRing share separation) d.ringNumbers (0, d) hd

/-! ## What relocation leaves of the links -/

theorem links_moveInside (d : Drawing K) (c v : Nat) : (d.moveInside c v).links = d.links := by
  have hnumber : ∀ (d : Drawing K) start order, (d.renumber start order).links = d.links :=
    fun d start order => foldl_eq_of_step_eq Drawing.links (fun _ _ => by rfl) _ d
  unfold moveInside
  dsimp only
  split
  · rfl
  · exact hnumber d _ _

theorem links_moveMembersInside (c budget : Nat) (d : Drawing K) :
    (moveMembersInside c budget d).2.links = d.links := by
  induction budget generalizing d with
  | zero => rfl
  | succ budget ih =>
      rw [moveMembersInside]
      split
      · split
        · rfl
        · exact (ih _).trans (d.links_moveInside c _)
      · rfl

theorem links_relocateOnRing (share separation : K) (state : Nat × Drawing K) (c : Nat) :
    (relocateOnRing share separation state c).2.links = state.2.links := by
  unfold relocateOnRing
  dsimp only
  split
  · exact links_moveMembersInside c _ state.2
  · rw [foldl_eq_of_step_eq Drawing.links fun d v =>
        (keeps_keepInside steady_standing d v _ _).links_eq,
      (keeps_spread steady_standing _ c separation).links_eq]
    exact links_moveMembersInside c _ state.2

theorem links_relocateInside (d : Drawing K) (share separation : K) :
    (d.relocateInside share separation).2.links = d.links :=
  foldl_eq_of_step_eq (fun s : Nat × Drawing K => s.2.links)
    (links_relocateOnRing share separation) _ (0, d)

/-! ## Inner links only -/

/-- The drawing of a valid graph is built with nobody inside a ring. -/
theorem place_build_ne_inside {g : Graph K} {o : Options K} {built : Drawing K}
    (h : build g o = .ok built) (v c : Nat) : built.skeleton.place v ≠ .inside c := by
  have hinside : built.skeleton.inside = [] := by
    obtain ⟨⟨⟩, -, h⟩ := bind_eq_ok h
    obtain ⟨cs, -, h⟩ := bind_eq_ok h
    cases h
    rfl
  intro hv
  have hmem := ((seated_build h).mem_inside_iff v).mpr ⟨c, hv⟩
  rw [hinside] at hmem
  cases hmem

/-- Whoever has gone inside a ring has inner links only. -/
theorem isInner_of_isInside {g : Graph K} {o : Options K} {built : Drawing K}
    (h : build g o = .ok built) (hbuilt : AsBuilt built d)
    (hsecludes : Secludes members built.skeleton d.skeleton) {v e : Nat}
    (hv : (d.body v).role.isInside = true) (he : e < d.links.size)
    (htouches : (d.link e).Touches v) : (d.link e).isInner = true := by
  obtain ⟨c, hinside⟩ := Role.isInside_iff.mp hv
  rcases hsecludes.links?_of_inside v c (Role.place_eq_inside_iff.mpr hinside) with
    hbefore | ⟨inner, hlinks⟩
  · exact absurd hbefore (place_build_ne_inside h v c)
  · change (built.body v).role.place.links? = _ at hlinks
    rw [links?_place, Option.map_eq_some_iff] at hlinks
    obtain ⟨s, hs, heq⟩ := hlinks
    have houter : s.outerLinks = [] := congrArg Prod.snd heq
    -- it has the links of the seat that it was built with
    have hends := hbuilt.ends_eq e
    rw [Prod.mk.injEq] at hends
    rw [Link.Touches, hends.1, hends.2] at htouches
    rw [hbuilt.isInner_eq]
    exact (linksListed_build h).isInner_of_outerLinks_eq_nil hs houter
      (hbuilt.linkCount_eq ▸ he) htouches

end Drawing

end RingLayout
