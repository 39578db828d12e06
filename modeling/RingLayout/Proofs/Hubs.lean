import RingLayout.Proofs.Seating.Operations
import RingLayout.Proofs.Quotient

/-! # Hubs

Every ring stands around a body of its own, its hub. Hubs are roots, and so are the bodies that
are on no ring; members of rings are neither roots nor set aside. Orders may change and members
may go inside without a change to this.
-/

namespace RingLayout

namespace Place

/-- The part of a member, on its ring or inside it. -/
def isMember : Place → Bool
  | .seated _ _ _ _ => true
  | .inside _ => true
  | _ => false

theorem isMember_of_seat? {p : Place} {c i : Nat} (h : p.seat? = some (c, i)) :
    p.isMember = true := by
  cases p with
  | seated => rfl
  | _ => cases h

/-- Another index is the business of members only. -/
theorem withIndex_cases (p : Place) (i : Nat) :
    p.withIndex i = p ∨ p.isMember = true ∧ (p.withIndex i).isMember = true := by
  cases p <;> simp [withIndex, isMember]

end Place

namespace Skeleton

/-- Rings and hubs belong together, and the bodies that move on their own are on no ring. -/
structure Hubbed (s : Skeleton) : Prop where
  hub : ∀ c, c < s.ringCount → s.place (s.ring c).hub = .hub c
  of_hub : ∀ v c, s.place v = .hub c → c < s.ringCount ∧ (s.ring c).hub = v
  root : ∀ v ∈ s.roots, s.place v = .free ∨ ∃ c, s.place v = .hub c
  tile : ∀ v ∈ s.tiled, s.place v = .free

/-- The skeleton of a drawing on its way: seated, with every ring around its hub. -/
structure Sound (members : Nat → List Nat) (s : Skeleton) : Prop where
  seated : s.Seated members
  hubbed : s.Hubbed

variable {members : Nat → List Nat} {s t : Skeleton}

/-- Members may change their parts as long as they stay members. -/
theorem Hubbed.congr (h : s.Hubbed) (hcount : t.ringCount = s.ringCount)
    (hhub : ∀ c, (t.ring c).hub = (s.ring c).hub) (hroots : t.roots = s.roots)
    (htiled : t.tiled = s.tiled)
    (hplace : ∀ v, t.place v = s.place v ∨
      (s.place v).isMember = true ∧ (t.place v).isMember = true) : t.Hubbed := by
  have hkeep : ∀ v p, p.isMember = false → (t.place v = p ↔ s.place v = p) := by
    intro v p hp
    rcases hplace v with heq | ⟨hs, ht⟩
    · rw [heq]
    · exact iff_of_false (fun heq => by simp [← heq, ht] at hp)
        (fun heq => by simp [← heq, hs] at hp)
  constructor
  case hub =>
    intro c hc
    rw [hkeep _ _ rfl, hhub]
    exact h.hub c (hcount ▸ hc)
  case of_hub =>
    intro v c hv
    rw [hcount, hhub]
    exact h.of_hub v c ((hkeep v _ rfl).mp hv)
  case root =>
    intro v hv
    refine (h.root v (hroots ▸ hv)).imp (hkeep v _ rfl).mpr ?_
    exact Exists.imp fun c => (hkeep v _ rfl).mpr
  case tile =>
    intro v hv
    exact (hkeep v _ rfl).mpr (h.tile v (htiled ▸ hv))

namespace Sound

theorem reorder (h : s.Sound members) {c : Nat} {order : List Nat}
    (hperm : order.Perm (s.ring c).order) : (s.reorder c order).Sound members where
  seated := h.seated.reorder hperm
  hubbed := by
    apply h.hubbed.congr
    case hcount => rw [reorder_eq]
    case hhub =>
      intro b
      rw [ring_reorder]
      split
      next hb => rw [hb]
      next => rfl
    case hroots => rw [reorder_eq]
    case htiled => rw [reorder_eq]
    case hplace =>
      intro v
      rw [place_reorder s c (hperm.nodup_iff.mpr (h.seated.order_nodup c))]
      split
      · exact Place.withIndex_cases _ _
      · exact Or.inl rfl

theorem takeInside (h : s.Sound members) {c i v : Nat} (hv : (s.ring c).order[i]? = some v) :
    (s.takeInside c i v).Sound members where
  seated := h.seated.takeInside hv
  hubbed := by
    apply h.hubbed.congr
    case hcount => rw [takeInside_eq]
    case hhub =>
      intro b
      rw [ring_takeInside]
      split
      next hb => rw [hb]
      next => rfl
    case hroots => rw [takeInside_eq]
    case htiled => rw [takeInside_eq]
    case hplace =>
      intro u
      by_cases hu : u = v
      · subst hu
        rw [place_takeInside_self]
        exact Or.inr ⟨Place.isMember_of_seat? ((h.seated.seat_iff u c i).mpr hv), rfl⟩
      · rw [s.place_takeInside (h.seated.order_nodup c) hu]
        split
        · exact Place.withIndex_cases _ _
        · exact Or.inl rfl

end Sound

end Skeleton

namespace Drawing

variable {K : Type} [Scalar K] {g : Graph K} {o : Options K}

theorem hubbed_ofClusters (g : Graph K) (o : Options K) (cs : List (List Nat)) :
    (ofClusters g o cs).skeleton.Hubbed := by
  have hcount : (ofClusters g o cs).skeleton.ringCount = cs.length := by
    change (ofClusters g o cs).rings.size = _
    simp [ofClusters]
  have hrole : ∀ v c, (roleOf cs (newLinks g o cs) v).place ≠ .hub c := by
    intro v c
    unfold roleOf
    cases clusterOf? cs v <;> exact Place.noConfusion
  have hfree : ∀ v, v < g.drawnNodes.length → clusterOf? cs v = none →
      (ofClusters g o cs).skeleton.place v = .free := by
    intro v hv hloose
    rw [place_ofClusters, if_pos hv, roleOf, hloose]
    rfl
  have hhub : ∀ c, c < cs.length →
      (ofClusters g o cs).skeleton.place (g.drawnNodes.length + c) = .hub c := by
    intro c hc
    rw [place_ofClusters, if_neg (by omega), if_pos (by omega), Nat.add_sub_cancel_left]
  constructor
  case hub =>
    intro c hc
    rw [hcount] at hc
    have heq : ((ofClusters g o cs).skeleton.ring c).hub = g.drawnNodes.length + c :=
      hub_ofClusters hc
    rw [heq]
    exact hhub c hc
  case of_hub =>
    intro v c hv
    rw [place_ofClusters] at hv
    split at hv
    next => exact absurd hv (hrole v c)
    next hnode =>
      split at hv
      next hlt =>
        obtain rfl : v - g.drawnNodes.length = c := Place.hub.inj hv
        have hc : v - g.drawnNodes.length < cs.length := by omega
        refine ⟨hcount ▸ hc, (hub_ofClusters hc).trans ?_⟩
        omega
      next => cases hv
  case root =>
    intro v hv
    rcases mem_roots_ofClusters.mp hv with ⟨c, hc, rfl⟩ | ⟨hlt, hloose, -⟩
    · exact Or.inr ⟨c, hhub c hc⟩
    · exact Or.inl (hfree v hlt hloose)
  case tile =>
    intro v hv
    obtain ⟨hlt, hloose⟩ := mem_loose_iff.mp (List.mem_of_mem_filter hv)
    exact hfree v hlt hloose

section Sound

variable {members : Nat → List Nat} {d : Drawing K} (h : d.skeleton.Sound members)
include h

theorem ring?_of_mem_order {c v : Nat} (hv : v ∈ (d.ring c).order) :
    (d.body v).role.ring? = some c := by
  rw [← ring?_wiring]
  exact Place.ring?_of_seat? (h.seated.seat?_of_mem hv)

theorem ring?_of_mem_inside {c v : Nat} (hv : v ∈ (d.ring c).inside) :
    (d.body v).role.ring? = some c := by
  rw [Role.place_eq_inside_iff.mp ((h.seated.inside_iff v c).mpr hv)]
  rfl

theorem role_hub {c : Nat} (hc : c < d.rings.size) :
    (d.body (d.ring c).hub).role = .hub c := by
  have hplace : (d.body (d.ring c).hub).role.place = .hub c := h.hubbed.hub c hc
  cases hrole : (d.body (d.ring c).hub).role <;> rw [hrole] at hplace <;> cases hplace
  rfl

end Sound

/-- A new drawing is sound, each ring with the members it was built with. -/
theorem sound_build {d : Drawing K} (h : build g o = .ok d) :
    d.skeleton.Sound fun c => (d.ring c).order where
  seated := seated_build h
  hubbed := by
    obtain ⟨⟨⟩, -, h⟩ := bind_eq_ok h
    obtain ⟨cs, -, h⟩ := bind_eq_ok h
    cases h
    exact hubbed_ofClusters g o cs

end Drawing

end RingLayout
