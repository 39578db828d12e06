import RingLayout.Proofs.Locality

/-! # Plans

The plan of a drawing is what its building settles for good: which nodes there are, how they are
linked, which rings they belong to, and which of them are set aside. Orders may change and members
may go inside without a change to the plan.
-/

namespace RingLayout

namespace Place

/-- The inner and the outer links of a seat. -/
def links? : Place → Option (List Nat × List Nat)
  | .seated _ _ inner outer => some (inner, outer)
  | _ => none

theorem links?_withIndex (p : Place) (i : Nat) : (p.withIndex i).links? = p.links? := by
  cases p <;> rfl

end Place

/-- What is settled once a drawing has been built. -/
@[ext] structure Plan where
  bodyCount : Nat
  nodeCount : Nat
  id : Nat → Option String
  group : Nat → Option String
  ring? : Nat → Option Nat
  linkCount : Nat
  link : Nat → LinkShape
  adjacency : Array (List (Nat × Nat))
  ringCount : Nat
  hub : Nat → Nat
  innerLinks : Nat → List Nat
  outerLinks : Nat → List Nat
  roots : List Nat
  tiled : List Nat
  groups : List String

/-- How the nodes of a drawing hang together is a matter of its plan. -/
def Plan.wiring (p : Plan) : Wiring where
  nodeCount := p.nodeCount
  linkCount := p.linkCount
  ends e := ((p.link e).source, (p.link e).target)
  ring? := p.ring?
  hub := p.hub
  roots := p.roots
  tiled := p.tiled

namespace Skeleton

def plan (s : Skeleton) : Plan where
  bodyCount := s.bodyCount
  nodeCount := s.nodeCount
  id v := (s.body v).id
  group v := (s.body v).group
  ring? v := (s.place v).ring?
  linkCount := s.linkCount
  link := s.link
  adjacency := s.adjacency
  ringCount := s.ringCount
  hub c := (s.ring c).hub
  innerLinks c := (s.ring c).innerLinks
  outerLinks c := (s.ring c).outerLinks
  roots := s.roots
  tiled := s.tiled
  groups := s.groups

variable {members : Nat → List Nat} {s t u : Skeleton}

/-- Parts, orders and lists of members may change without a change to the plan. -/
theorem plan_congr (hsame : t = { s with
      body := t.body, ring := t.ring, seated := t.seated, inside := t.inside })
    (hwiring : t.wiring = s.wiring) (hbody : ∀ v, t.body v = { s.body v with place := t.place v })
    (hinner : ∀ c, (t.ring c).innerLinks = (s.ring c).innerLinks)
    (houter : ∀ c, (t.ring c).outerLinks = (s.ring c).outerLinks) : t.plan = s.plan := by
  ext1
  case id =>
    funext v
    change (t.body v).id = (s.body v).id
    rw [hbody]
  case group =>
    funext v
    change (t.body v).group = (s.body v).group
    rw [hbody]
  case ring? => exact congrArg Wiring.ring? hwiring
  case hub => exact congrArg Wiring.hub hwiring
  case innerLinks => exact funext hinner
  case outerLinks => exact funext houter
  all_goals
    rw [hsame]
    rfl

/-- Another order of a ring is no other plan. -/
theorem Sound.plan_reorder (h : s.Sound members) {c : Nat} {order : List Nat}
    (hperm : order.Perm (s.ring c).order) : (s.reorder c order).plan = s.plan := by
  apply plan_congr
  case hsame =>
    rw [reorder_eq]
  case hwiring => exact (h.seated.reseats_reorder hperm).wiring_eq
  case hbody => exact s.body_reorder c order
  case hinner => exact s.innerLinks_reorder c order
  case houter =>
    intro b
    rw [ring_reorder]
    split
    next hb => rw [hb]
    next => rfl

theorem body_takeInside (s : Skeleton) (c i v u : Nat) :
    (s.takeInside c i v).body u =
      { s.body u with place := (s.takeInside c i v).place u } := by
  simp only [takeInside, place]
  by_cases hu : u = v
  · subst hu
    simp [body_setIndices, setRing]
  · simp [hu, body_setIndices, setRing]

/-- A member that goes inside leaves the plan as it is. -/
theorem Sound.plan_takeInside (h : s.Sound members) {c i v : Nat}
    (hv : (s.ring c).order[i]? = some v) : (s.takeInside c i v).plan = s.plan := by
  apply plan_congr
  case hsame =>
    rw [takeInside_eq]
  case hwiring => exact (h.seated.reseats_takeInside hv).wiring_eq
  case hbody => exact s.body_takeInside c i v
  case hinner => exact s.innerLinks_takeInside c i v
  case houter =>
    intro b
    rw [ring_takeInside]
    split
    next hb => rw [hb]
    next => rfl

/-- A body that may move on its own. -/
def Loose (s : Skeleton) (v : Nat) : Prop := s.place v = .free ∨ ∃ c, s.place v = .inside c

/-- A body that moves on its own in a simulation: a loose one that is not set aside. -/
def Adrift (s : Skeleton) (v : Nat) : Prop := s.Loose v ∧ v ∉ s.tiled

/-- The second skeleton is sound and keeps the plan of the first. -/
structure Evolves (members : Nat → List Nat) (s t : Skeleton) : Prop where
  sound : t.Sound members
  plan_eq : t.plan = s.plan
  loose : ∀ v, s.Loose v → t.Loose v
  /-- A member that is still on its ring has its links. -/
  links : ∀ v p, (t.place v).links? = some p → (s.place v).links? = some p

namespace Evolves

theorem refl (h : s.Sound members) : Evolves members s s := ⟨h, rfl, fun _ => id, fun _ _ => id⟩

theorem trans (hst : Evolves members s t) (htu : Evolves members t u) : Evolves members s u where
  sound := htu.sound
  plan_eq := htu.plan_eq.trans hst.plan_eq
  loose v hv := htu.loose v (hst.loose v hv)
  links v p hp := hst.links v p (htu.links v p hp)

section

variable (h : Evolves members s t)
include h

theorem ringCount_eq : t.ringCount = s.ringCount := congrArg Plan.ringCount h.plan_eq

theorem roots_eq : t.roots = s.roots := congrArg Plan.roots h.plan_eq

theorem tiled_eq : t.tiled = s.tiled := congrArg Plan.tiled h.plan_eq

theorem wiring_eq : t.wiring = s.wiring := congrArg Plan.wiring h.plan_eq

theorem adrift {v : Nat} (hv : s.Adrift v) : t.Adrift v :=
  ⟨h.loose v hv.1, h.tiled_eq ▸ hv.2⟩

end

end Evolves

theorem Sound.evolves_reorder (h : s.Sound members) {c : Nat} {order : List Nat}
    (hperm : order.Perm (s.ring c).order) : Evolves members s (s.reorder c order) := by
  have hplace := place_reorder s c (hperm.nodup_iff.mpr (h.seated.order_nodup c))
  constructor
  case sound => exact h.reorder hperm
  case plan_eq => exact h.plan_reorder hperm
  case loose =>
    intro v hv
    have hsame : (s.reorder c order).place v = s.place v := by
      rw [hplace]
      split
      · rcases hv with hv | ⟨b, hv⟩ <;> rw [hv] <;> rfl
      · rfl
    rwa [Loose, hsame]
  case links =>
    intro v p hp
    rw [hplace] at hp
    split at hp
    · rwa [Place.links?_withIndex] at hp
    · exact hp

theorem Sound.evolves_takeInside (h : s.Sound members) {c i v : Nat}
    (hv : (s.ring c).order[i]? = some v) : Evolves members s (s.takeInside c i v) := by
  have hplace := fun u => s.place_takeInside (i := i) (v := v) (u := u) (h.seated.order_nodup c)
  constructor
  case sound => exact h.takeInside hv
  case plan_eq => exact h.plan_takeInside hv
  case loose =>
    intro u hu
    by_cases huv : u = v
    · rw [huv]
      exact Or.inr ⟨c, place_takeInside_self s c i v⟩
    · have hsame : (s.takeInside c i v).place u = s.place u := by
        rw [hplace u huv]
        split
        · rcases hu with hu | ⟨b, hu⟩ <;> rw [hu] <;> rfl
        · rfl
      rwa [Loose, hsame]
  case links =>
    intro u p hp
    by_cases huv : u = v
    · rw [huv, place_takeInside_self] at hp
      cases hp
    · rw [hplace u huv] at hp
      split at hp
      · rwa [Place.links?_withIndex] at hp
      · exact hp

/-- Neither the hub of a ring nor its members may move on their own. -/
theorem Sound.not_loose (h : s.Sound members) {b v : Nat} (hb : b < s.ringCount)
    (hv : v = (s.ring b).hub ∨ v ∈ (s.ring b).order) : ¬s.Loose v := by
  intro hloose
  rcases hv with rfl | hv
  · rw [Loose, h.hubbed.hub b hb] at hloose
    rcases hloose with heq | ⟨c, heq⟩ <;> cases heq
  · have hseat := h.seated.seat?_of_mem hv
    rcases hloose with heq | ⟨c, heq⟩ <;> rw [heq] at hseat <;> cases hseat

/-- A member inside its ring moves on its own. -/
theorem Sound.adrift_of_inside (h : s.Sound members) {v c : Nat} (hv : s.place v = .inside c) :
    s.Adrift v := by
  refine ⟨Or.inr ⟨c, hv⟩, fun htiled => ?_⟩
  have hfree := h.hubbed.tile v htiled
  rw [hv] at hfree
  cases hfree

/-- So does a root on no ring. -/
theorem Sound.adrift_of_mem_roots (h : s.Sound members) {v : Nat} (hv : v ∈ s.roots)
    (hfree : s.place v = .free) : s.Adrift v := by
  refine ⟨Or.inl hfree, fun htiled => ?_⟩
  have hparts := h.seated.parts_perm.nodup_iff.mpr List.nodup_range
  have hdisjoint := (List.nodup_append'.mp hparts).2.2
  exact hdisjoint (List.mem_append_right _ hv) htiled

end Skeleton

end RingLayout
