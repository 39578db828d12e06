import Mathlib.Data.List.Nodup
import Mathlib.Logic.Function.Basic
import RingLayout.Drawing

/-! # Skeletons

The skeleton of a drawing is what remains of it without numbers and flags: the part that every
body plays, the orders of the rings, the ends of the links, and the four lists of bodies. Most
operations only move bodies and leave the skeleton as it is.
-/

namespace RingLayout

/-- The part a body plays, with a seat that has lost its angle, its flags and its pull. -/
inductive Place where
  | free
  | seated (ring index : Nat) (innerLinks outerLinks : List Nat)
  | inside (ring : Nat)
  | hub (ring : Nat)

namespace Place

/-- The same part, a seat with another index. -/
def withIndex (i : Nat) : Place → Place
  | .seated c _ inner outer => .seated c i inner outer
  | p => p

end Place

/-- The part a role stands for. -/
def Role.place {K : Type} : Role K → Place
  | .free => .free
  | .seated s => .seated s.ring s.index s.innerLinks s.outerLinks
  | .inside c => .inside c
  | .hub c => .hub c

/-- What remains of a body. -/
structure BodyShape where
  id : Option String
  group : Option String
  place : Place

def Body.shape {K : Type} (b : Body K) : BodyShape := ⟨b.id, b.group, b.role.place⟩

/-- What remains of a ring. -/
structure RingShape where
  hub : Nat
  order : List Nat
  inside : List Nat
  innerLinks : List Nat
  outerLinks : List Nat

def Ring.shape {K : Type} (r : Ring K) : RingShape :=
  ⟨r.hub, r.order, r.inside, r.innerLinks, r.outerLinks⟩

/-- What remains of a link. -/
structure LinkShape where
  source : Nat
  target : Nat
  ring : Option Nat

def Link.shape {K : Type} (l : Link K) : LinkShape := ⟨l.source, l.target, l.ring⟩

/-- A drawing without numbers and flags. -/
@[ext] structure Skeleton where
  bodyCount : Nat
  body : Nat → BodyShape
  ringCount : Nat
  ring : Nat → RingShape
  linkCount : Nat
  link : Nat → LinkShape
  adjacency : Array (List (Nat × Nat))
  nodeCount : Nat
  seated : List Nat
  inside : List Nat
  roots : List Nat
  tiled : List Nat
  groups : List String

namespace Skeleton

/-- The part a body plays. -/
def place (s : Skeleton) (v : Nat) : Place := (s.body v).place

/-- Gives the seat of a body another index. -/
def setIndex (s : Skeleton) (v i : Nat) : Skeleton :=
  { s with
    body := Function.update s.body v { s.body v with place := (s.place v).withIndex i } }

/-- Gives the seats of listed bodies their indices, one after the other. -/
def setIndices (s : Skeleton) (seats : List (Nat × Nat)) : Skeleton :=
  seats.foldl (fun s p => s.setIndex p.1 p.2) s

def setRing (s : Skeleton) (c : Nat) (r : RingShape) : Skeleton :=
  { s with ring := Function.update s.ring c r }

theorem place_setIndex (s : Skeleton) (v i u : Nat) :
    (s.setIndex v i).place u = if u = v then (s.place v).withIndex i else s.place u := by
  by_cases h : u = v
  · subst h
    simp [setIndex, place]
  · simp [setIndex, place, h]

end Skeleton

/-- What every step of a loop leaves alone, the loop leaves alone. -/
theorem foldl_eq_of_step_eq {σ α τ : Type} (view : σ → τ) {step : σ → α → σ}
    (hstep : ∀ s a, view (step s a) = view s) (l : List α) (s : σ) :
    view (l.foldl step s) = view s := by
  induction l generalizing s with
  | nil => rfl
  | cons a l ih => rw [List.foldl_cons, ih, hstep]

/-- A change of one entry that keeps what is looked at. -/
theorem map_modify_eq {α τ : Type} (xs : Array α) (i : Nat) {view : α → τ} {f : α → α}
    (hf : ∀ a, view (f a) = view a) : (xs.modify i f).map view = xs.map view := by
  ext k hk hk'
  · simp
  · simp only [Array.getElem_map, Array.getElem_modify]
    split
    · exact hf _
    · rfl

namespace Drawing

variable {K : Type} [Scalar K]

def skeleton (d : Drawing K) : Skeleton where
  bodyCount := d.bodies.size
  body v := (d.body v).shape
  ringCount := d.rings.size
  ring c := (d.ring c).shape
  linkCount := d.links.size
  link e := (d.link e).shape
  adjacency := d.adjacency
  nodeCount := d.nodeCount
  seated := d.seated
  inside := d.inside
  roots := d.roots
  tiled := d.tiled
  groups := d.groups

theorem ring_of_rings {d d' : Drawing K} (h : d'.rings = d.rings) (c : Nat) :
    d'.ring c = d.ring c := by
  rw [ring, ring, h]

theorem link_of_links {d d' : Drawing K} (h : d'.links = d.links) (e : Nat) :
    d'.link e = d.link e := by
  rw [link, link, h]

/-- Of the bodies, a skeleton keeps the shapes. -/
theorem skeleton_withBodies (d : Drawing K) (bodies : Array (Body K))
    (hsize : bodies.size = d.bodies.size)
    (hshape : ∀ v, (bodies.getD v Body.blank).shape = (d.body v).shape) :
    ({ d with bodies := bodies } : Drawing K).skeleton = d.skeleton := by
  ext1
  · exact hsize
  · exact funext hshape
  all_goals rfl

theorem body_modifyBody_of_ne (d : Drawing K) {v u : Nat} (h : u ≠ v) (f : Body K → Body K) :
    (d.modifyBody v f).body u = d.body u := by
  simp only [modifyBody, body, Array.getD_eq_getD_getElem?, Array.getElem?_modify,
    if_neg (Ne.symm h)]

/-- What a change of one body keeps of it, is kept of all bodies. -/
theorem view_modifyBody {τ : Type} (view : Body K → τ) (d : Drawing K) (v u : Nat)
    {f : Body K → Body K} (hf : ∀ b, view (f b) = view b) :
    view ((d.modifyBody v f).body u) = view (d.body u) := by
  simp only [modifyBody, body, Array.getD_eq_getD_getElem?, Array.getElem?_modify]
  by_cases h : v = u
  · rw [if_pos h]
    cases d.bodies[u]? with
    | none => rfl
    | some b => exact hf b
  · rw [if_neg h]

theorem skeleton_modifyBody (d : Drawing K) (v : Nat) {f : Body K → Body K}
    (hf : ∀ b, (f b).shape = b.shape) :
    (d.modifyBody v f).skeleton = d.skeleton :=
  d.skeleton_withBodies _ Array.size_modify fun u => view_modifyBody Body.shape d v u hf

theorem skeleton_modifySeat (d : Drawing K) (v : Nat) {f : Seat K → Seat K}
    (hf : ∀ s, (Role.seated (f s)).place = (Role.seated s).place) :
    (d.modifySeat v f).skeleton = d.skeleton := by
  refine d.skeleton_modifyBody v fun b => ?_
  cases hrole : b.role with
  | seated s => simp only [Body.shape, hrole, Role.mapSeat, hf]
  | _ => simp only [Body.shape, hrole, Role.mapSeat]

/-- A seat that gets another index gets it in the skeleton. A body that has no seat, or that does
not exist, has none in the skeleton either. -/
theorem skeleton_modifySeat_index (d : Drawing K) (v i : Nat) {f : Seat K → Seat K}
    (hf : ∀ s, (Role.seated (f s)).place = (Role.seated s).place.withIndex i) :
    (d.modifySeat v f).skeleton = d.skeleton.setIndex v i := by
  have hseat : ∀ b : Body K, (b.role.mapSeat f).place = b.role.place.withIndex i := by
    intro b
    cases hrole : b.role with
    | seated s => exact hf s
    | _ => rfl
  ext1
  case bodyCount => exact Array.size_modify
  case body =>
    funext u
    by_cases hv : v < d.bodies.size
    · simp only [modifySeat, skeleton, Skeleton.setIndex, Skeleton.place, body_modifyBody d hv,
        Function.update_apply]
      by_cases h : u = v
      · simp only [if_pos h, Body.shape, hseat]
      · simp only [if_neg h]
    · have hnone : d.bodies[v]? = none := Array.getElem?_eq_none (Nat.le_of_not_lt hv)
      simp only [modifySeat, skeleton, Skeleton.setIndex, Skeleton.place, Function.update_apply,
        modifyBody, body, Array.getD_eq_getD_getElem?, Array.getElem?_modify]
      by_cases h : u = v
      · subst h
        simp only [if_pos, hnone, Option.map_none, Option.getD_none]
        rfl
      · simp only [if_neg h, if_neg (Ne.symm h)]
  all_goals rfl

/-- A body that gets another role plays another part. -/
theorem skeleton_setRole (d : Drawing K) {v : Nat} (hv : v < d.bodies.size) (role : Role K) :
    (d.modifyBody v fun b => { b with role := role }).skeleton =
      { d.skeleton with
        body := Function.update d.skeleton.body v
          { d.skeleton.body v with place := role.place } } := by
  ext1
  case bodyCount => exact Array.size_modify
  case body =>
    funext u
    simp only [skeleton, body_modifyBody d hv, Function.update_apply]
    split <;> rfl
  all_goals rfl

/-- A ring is changed where it stands, and a ring that does not exist not at all. -/
theorem skeleton_modifyRing (d : Drawing K) (c : Nat) {f : Ring K → Ring K} {r : RingShape}
    (hf : (f (d.ring c)).shape = r) (hout : d.rings.size ≤ c → r = (d.ring c).shape) :
    (d.modifyRing c f).skeleton = d.skeleton.setRing c r := by
  ext1
  case ringCount => exact Array.size_modify
  case ring =>
    funext b
    by_cases hc : c < d.rings.size
    · simp only [skeleton, Skeleton.setRing, ring_modifyRing d hc, Function.update_apply]
      by_cases h : b = c
      · simp only [if_pos h, hf]
      · simp only [if_neg h]
    · have hnone : d.rings[c]? = none := Array.getElem?_eq_none (Nat.le_of_not_lt hc)
      simp only [skeleton, Skeleton.setRing, Function.update_apply, modifyRing, ring,
        Array.getD_eq_getD_getElem?, Array.getElem?_modify]
      by_cases h : b = c
      · subst h
        rw [if_pos rfl, if_pos rfl, hout (Nat.le_of_not_lt hc), hnone]
        simp only [ring, Array.getD_eq_getD_getElem?, hnone, Option.map_none]
      · simp only [if_neg h, if_neg (Ne.symm h)]
  all_goals rfl

theorem skeleton_modifyRing_eq (d : Drawing K) (c : Nat) {f : Ring K → Ring K}
    (hf : ∀ r, (f r).shape = r.shape) : (d.modifyRing c f).skeleton = d.skeleton := by
  rw [d.skeleton_modifyRing c (hf _) fun _ => rfl]
  ext1
  case ring => exact Function.update_eq_self c d.skeleton.ring
  all_goals rfl

end Drawing

end RingLayout
