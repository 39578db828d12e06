import RingLayout.Proofs.Motions.Members

/-! # The parts of a drawing

The bodies that are not set aside fall into parts, which hang together along links and within
rings. A root stands for the bodies that move with it, and the components of the roots stand for
the parts.
-/

namespace RingLayout.Drawing

variable {K : Type} [Scalar K] {members : Nat → List Nat} {d : Drawing K}

/-- A body that is not set aside. -/
def Active (d : Drawing K) (v : Nat) : Prop := v < d.bodies.size ∧ v ∉ d.tiled

/-- From a body to another along a link or within a ring, to which its hub belongs. -/
inductive Tie (d : Drawing K) : Nat → Nat → Prop
  | link {l : Link K} (hl : l ∈ d.links) : Tie d l.source l.target
  | ring {u v c : Nat} (hu : (d.body u).role.ring? = some c)
      (hv : (d.body v).role.ring? = some c) : Tie d u v

/-- Bodies that chains of ties join are in one part. -/
def Together (d : Drawing K) : Nat → Nat → Prop := Relation.EqvGen d.Tie

namespace Together

variable {u v w : Nat}

theorem refl (d : Drawing K) (v : Nat) : d.Together v v := Relation.EqvGen.refl v

theorem symm (h : d.Together u v) : d.Together v u := Relation.EqvGen.symm _ _ h

theorem trans (h : d.Together u v) (h' : d.Together v w) : d.Together u w :=
  Relation.EqvGen.trans _ _ _ h h'

end Together

/-! ## Roots and what they stand for -/

section Sound

variable (hd : d.skeleton.Sound members)
include hd

theorem lt_rings_of_ring? {v c : Nat} (hv : (d.body v).role.ring? = some c) :
    c < d.rings.size := by
  cases hrole : (d.body v).role with
  | free =>
      rw [hrole] at hv
      cases hv
  | seated s =>
      rw [hrole] at hv
      cases hv
      refine lt_size_of_mem_order (List.mem_of_getElem? ((hd.seated.seat_iff v s.ring s.index).mp ?_))
      change (d.body v).role.place.seat? = _
      rw [hrole]
      rfl
  | inside b =>
      rw [hrole] at hv
      cases hv
      exact lt_size_of_mem_inside ((hd.seated.inside_iff v c).mp (congrArg Role.place hrole))
  | hub b =>
      rw [hrole] at hv
      cases hv
      exact (hd.hubbed.of_hub v c (congrArg Role.place hrole)).1

/-- The bodies of a ring are those that move with it. -/
theorem mem_crew_iff {c v : Nat} (hc : c < d.rings.size) :
    v ∈ d.crew c ↔ (d.body v).role.ring? = some c := by
  constructor
  · intro hv
    rcases List.mem_cons.mp hv with rfl | hv
    · exact congrArg Role.ring? (role_hub hd hc)
    · rcases List.mem_append.mp hv with horder | hinside
      · exact ring?_of_mem_order hd horder
      · exact ring?_of_mem_inside hd hinside
  · intro hv
    cases hrole : (d.body v).role with
    | free =>
        rw [hrole] at hv
        cases hv
    | seated s =>
        rw [hrole] at hv
        cases hv
        refine List.mem_cons_of_mem _ (List.mem_append_left _ (List.mem_of_getElem?
          ((hd.seated.seat_iff v s.ring s.index).mp ?_)))
        change (d.body v).role.place.seat? = _
        rw [hrole]
        rfl
    | inside b =>
        rw [hrole] at hv
        cases hv
        refine List.mem_cons_of_mem _ (List.mem_append_right _ ?_)
        exact (hd.seated.inside_iff v c).mp (congrArg Role.place hrole)
    | hub b =>
        rw [hrole] at hv
        cases hv
        have hhub := (hd.hubbed.of_hub v c (congrArg Role.place hrole)).2
        rw [← hhub]
        exact List.mem_cons_self

theorem active_of_mem_roots {r : Nat} (hr : r ∈ d.roots) : d.Active r := by
  have hparts := hd.seated.parts_perm
  have hmem : r ∈ d.seated ++ d.inside ++ d.roots := List.mem_append_right _ hr
  refine ⟨List.mem_range.mp (hparts.mem_iff.mp (List.mem_append_left _ hmem)), fun htiled => ?_⟩
  exact (List.nodup_append'.mp (hparts.nodup_iff.mpr List.nodup_range)).2.2 hmem htiled

theorem mem_roots_of_hub {c : Nat} (hc : c < d.rings.size) : (d.ring c).hub ∈ d.roots := by
  have hplace : d.skeleton.place (d.ring c).hub = .hub c := hd.hubbed.hub c hc
  have hlt : (d.ring c).hub ∈ List.range d.bodies.size :=
    List.mem_range.mpr (lt_size_of_ring? (congrArg Role.ring? (role_hub hd hc)))
  have hpart := hd.seated.parts_perm.mem_iff.mpr hlt
  simp only [List.mem_append, hd.seated.mem_seated_iff, hd.seated.mem_inside_iff, hplace] at hpart
  rcases hpart with ((hseat | ⟨b, hinside⟩) | hroot) | htiled
  · cases hseat
  · cases hinside
  · exact hroot
  · cases (hd.hubbed.tile _ htiled).symm.trans hplace

/-- A body that is not set aside has its root, and no other body has one. -/
theorem active_iff {v : Nat} : d.Active v ↔ d.representative v ∈ d.roots := by
  unfold representative
  cases hring : (d.body v).role.ring? with
  | some c =>
      refine iff_of_true ⟨lt_size_of_ring? hring, fun htiled => ?_⟩
        (mem_roots_of_hub hd (lt_rings_of_ring? hd hring))
      rw [← ring?_wiring] at hring
      cases (congrArg Place.ring? (hd.hubbed.tile v htiled)).symm.trans hring
  | none =>
      refine ⟨fun hv => ?_, active_of_mem_roots hd⟩
      have hpart := hd.seated.parts_perm.mem_iff.mpr (List.mem_range.mpr hv.1)
      have hfree : d.skeleton.place v = .free := by
        have hplace : (d.skeleton.place v).ring? = none := by
          rw [← hring, ← ring?_wiring]
          rfl
        cases heq : d.skeleton.place v <;> rw [heq] at hplace <;> first | rfl | cases hplace
      simp only [List.mem_append, hd.seated.mem_seated_iff, hd.seated.mem_inside_iff, hfree]
        at hpart
      rcases hpart with ((hseat | ⟨b, hinside⟩) | hroot) | htiled
      · cases hseat
      · cases hinside
      · exact hroot
      · exact absurd htiled hv.2

end Sound

/-- The bodies that move with a root: itself and, if it is a hub, the members of its ring. -/
def troop (d : Drawing K) (r : Nat) : List Nat :=
  r :: match (d.body r).role.hub? with
    | some c => (d.ring c).order ++ (d.ring c).inside
    | none => []

theorem boxesAt_eq (d : Drawing K) (r : Nat) :
    d.boxesAt r = (d.troop r).map fun u => (d.body u).box := by
  unfold boxesAt troop
  cases hhub : (d.body r).role.hub? with
  | some c => simp [hhub]
  | none => simp [hhub]

section Sound

variable (hd : d.skeleton.Sound members) {r : Nat} (hr : r ∈ d.roots)
include hd

theorem of_hub? {c : Nat} (hhub : (d.body r).role.hub? = some c) :
    c < d.rings.size ∧ (d.ring c).hub = r := by
  refine hd.hubbed.of_hub r c ?_
  change (d.body r).role.place = _
  cases hrole : (d.body r).role <;> rw [hrole] at hhub <;> cases hhub
  rfl

theorem troop_of_hub? {c : Nat} (hhub : (d.body r).role.hub? = some c) : d.troop r = d.crew c := by
  rw [troop, crew, hhub, (of_hub? hd hhub).2]

include hr

theorem ring?_of_hub?_eq_none (hhub : (d.body r).role.hub? = none) :
    (d.body r).role.ring? = none := by
  rw [← ring?_wiring]
  rcases hd.hubbed.root r hr with hfree | ⟨c, hplace⟩
  · exact congrArg Place.ring? hfree
  · have hrole : (d.body r).role.place = .hub c := hplace
    cases heq : (d.body r).role <;> rw [heq] at hrole hhub <;> cases hrole
    cases hhub

/-- The bodies that move with a root are those that it stands for. -/
theorem mem_troop_iff {u : Nat} : u ∈ d.troop r ↔ d.representative u = r := by
  cases hhub : (d.body r).role.hub? with
  | some c =>
      obtain ⟨hc, hring⟩ := of_hub? hd hhub
      rw [troop_of_hub? hd hhub, mem_crew_iff hd hc, representative]
      cases hu : (d.body u).role.ring? with
      | some b =>
          dsimp only
          constructor
          · rintro ⟨⟩
            exact hring
          · intro heq
            have hb := role_hub hd (lt_rings_of_ring? hd hu)
            rw [heq, ← hring, role_hub hd hc] at hb
            rw [Role.hub.inj hb]
      | none =>
          refine iff_of_false nofun fun heq : u = r => ?_
          rw [heq, ← hring, role_hub hd hc] at hu
          cases hu
  | none =>
      have hfree := ring?_of_hub?_eq_none hd hr hhub
      rw [troop, hhub, List.mem_singleton, representative]
      constructor
      · rintro rfl
        rw [hfree]
      · intro heq
        cases hu : (d.body u).role.ring? with
        | some b =>
            rw [hu] at heq
            change (d.ring b).hub = r at heq
            have hb := role_hub hd (lt_rings_of_ring? hd hu)
            rw [heq] at hb
            rw [hb] at hhub
            cases hhub
        | none => rwa [hu] at heq

/-- A root is moved with all bodies that it stands for, and without others. -/
theorem body_translateRoot (delta : Point K) (u : Nat) : (translateRoot delta d r).body u =
    if d.representative u = r then (d.body u).translate delta else d.body u := by
  simp only [← mem_troop_iff hd hr]
  unfold translateRoot
  cases hhub : (d.body r).role.hub? with
  | some c =>
      rw [troop_of_hub? hd hhub]
      exact body_translateRing hd (of_hub? hd hhub).1 delta u
  | none =>
      rw [troop, hhub]
      simp only [List.mem_singleton]
      refine (body_modifyBody d (active_of_mem_roots hd hr).1 _ u).trans ?_
      exact ite_congr rfl (fun hu => by rw [hu]) fun _ => rfl

end Sound

/-! ## Parts and components -/

section Rooted

variable (hd : d.skeleton.Sound members) (h : d.skeleton.wiring.Rooted)
include hd h

theorem active_of_tie {u v : Nat} (htie : d.Tie u v) : d.Active u ∧ d.Active v := by
  cases htie with
  | link hl =>
      obtain ⟨hsource, htarget⟩ := representative_mem h _ hl
      exact ⟨(active_iff hd).mpr hsource, (active_iff hd).mpr htarget⟩
  | ring hu hv =>
      have hactive : ∀ {w c : Nat}, (d.body w).role.ring? = some c → d.Active w := by
        intro w c hw
        rw [active_iff hd, representative, hw]
        exact mem_roots_of_hub hd (lt_rings_of_ring? hd hw)
      exact ⟨hactive hu, hactive hv⟩

theorem Together.active_iff {u v : Nat} (htogether : d.Together u v) : d.Active u ↔ d.Active v := by
  induction htogether with
  | rel u v htie => exact iff_of_true (active_of_tie hd h htie).1 (active_of_tie hd h htie).2
  | refl u => exact Iff.rfl
  | symm u v _ ih => exact ih.symm
  | trans u v w _ _ ihu ihv => exact ihu.trans ihv

omit h in
/-- Bodies of one root are in one part. -/
theorem together_of_representative_eq {u v : Nat} (hu : d.Active u) (hv : d.Active v)
    (heq : d.representative u = d.representative v) : d.Together u v := by
  have hroot : ∀ {w : Nat}, d.Active w → d.Together w (d.representative w) := by
    intro w hw
    have hr := (active_iff hd).mp hw
    cases hring : (d.body w).role.ring? with
    | some c =>
        have hrepresentative : d.representative w = (d.ring c).hub := by
          rw [representative, hring]
        rw [hrepresentative]
        refine Relation.EqvGen.rel _ _ (.ring hring (congrArg Role.ring? (role_hub hd ?_)))
        exact lt_rings_of_ring? hd hring
    | none =>
        have hrepresentative : d.representative w = w := by rw [representative, hring]
        rw [hrepresentative]
        exact Together.refl d w
  refine (hroot hu).trans ?_
  rw [heq]
  exact (hroot hv).symm

/-- Bodies are in one part when their roots reach each other. -/
theorem together_iff_reaches {u v : Nat} (hu : d.Active u) (hv : d.Active v) : d.Together u v ↔
    (Adjacency.ofPairs d.roots.length d.rootPairs).Reaches (d.roots.idxOf (d.representative u))
      (d.roots.idxOf (d.representative v)) := by
  apply Adjacency.eqvGen_iff_reaches d.Active d.rootPairs_lt ?_ ?_ ?_ hu hv
  · intro u v htie
    cases htie with
    | @link l hl =>
        refine or_iff_not_imp_left.mpr fun hne => (mem_rootPairs_iff h).mpr ⟨l, hl, ?_, rfl⟩
        exact fun heq => hne (congrArg d.roots.idxOf heq)
    | ring hu hv =>
        rw [representative, hu, representative, hv]
        exact Or.inl rfl
  · intro p hp
    obtain ⟨l, hl, -, rfl⟩ := (mem_rootPairs_iff h).mp hp
    obtain ⟨hsource, htarget⟩ := active_of_tie hd h (.link hl)
    exact ⟨_, _, hsource, htarget, .link hl, rfl⟩
  · intro u v hu hv heq
    apply together_of_representative_eq hd hu hv
    exact (List.idxOf_inj ((active_iff hd).mp hu)).mp heq

end Rooted

/-! ## The components of the roots -/

/-- The roots of a component. -/
def rootsOf (d : Drawing K) (component : List Nat) : List Nat :=
  component.map fun i => d.roots.getD i 0

/-- The roots of every component. -/
def rootParts (d : Drawing K) : List (List Nat) := d.rootComponents.map d.rootsOf

/-- The lists of roots stand for the parts of a drawing, one for each. -/
structure ShowsParts (d : Drawing K) (parts : List (List Nat)) : Prop where
  ne_nil : ∀ p ∈ parts, p ≠ []
  nodup : ∀ p ∈ parts, p.Nodup
  subset : ∀ p ∈ parts, p ⊆ d.roots
  disjoint : parts.Pairwise List.Disjoint
  exists_mem : ∀ u, d.Active u → ∃ p ∈ parts, d.representative u ∈ p
  together_iff : ∀ p ∈ parts, ∀ u v, d.Active u → d.Active v → d.representative u ∈ p →
    (d.Together u v ↔ d.representative v ∈ p)

section Components

variable {component : List Nat} (hcomponent : component ∈ d.rootComponents)
include hcomponent

theorem ne_nil_of_mem_rootComponents : component ≠ [] := by
  obtain ⟨u, -, hreaches⟩ := d.classes_rootComponents.class_of component hcomponent
  exact List.ne_nil_of_mem ((hreaches u).mpr Relation.ReflTransGen.refl)

theorem lt_of_mem_rootComponents : ∀ i ∈ component, i < d.roots.length := by
  intro i hi
  obtain ⟨u, hu, hmem⟩ := d.classes_rootComponents.class_of component hcomponent
  have hlt := (Adjacency.mutual_ofPairs d.rootPairs_lt).lt_of_reaches
    (by rwa [Adjacency.size_ofPairs]) ((hmem i).mp hi)
  rwa [Adjacency.size_ofPairs] at hlt

theorem rootsOf_subset : d.rootsOf component ⊆ d.roots := by
  intro r hr
  obtain ⟨i, hi, rfl⟩ := List.mem_map.mp hr
  have hlt := lt_of_mem_rootComponents hcomponent i hi
  rw [List.getD_eq_getElem?_getD, List.getElem?_eq_getElem hlt, Option.getD_some]
  exact List.getElem_mem hlt

variable (hnodup : d.roots.Nodup)
include hnodup

theorem idxOf_getD_roots : ∀ i ∈ component, d.roots.idxOf (d.roots.getD i 0) = i := by
  intro i hi
  have hlt := lt_of_mem_rootComponents hcomponent i hi
  rw [List.getD_eq_getElem?_getD, List.getElem?_eq_getElem hlt, Option.getD_some]
  exact hnodup.idxOf_getElem i hlt

theorem mem_rootsOf_iff {r : Nat} (hr : r ∈ d.roots) :
    r ∈ d.rootsOf component ↔ d.roots.idxOf r ∈ component := by
  rw [rootsOf, List.mem_map]
  constructor
  · rintro ⟨i, hi, rfl⟩
    rwa [idxOf_getD_roots hcomponent hnodup i hi]
  · exact fun hi => ⟨_, hi, getD_idxOf_roots hr⟩

theorem nodup_rootsOf : (d.rootsOf component).Nodup := by
  have hdistinct := Adjacency.nodup_components (Adjacency.mutual_ofPairs d.rootPairs_lt) component
    hcomponent
  refine hdistinct.map_on fun i hi j hj heq => ?_
  rw [← idxOf_getD_roots hcomponent hnodup i hi, heq, idxOf_getD_roots hcomponent hnodup j hj]

end Components

/-- The components of the roots stand for the parts. -/
theorem showsParts_rootParts (hd : d.skeleton.Sound members) (h : d.skeleton.wiring.Rooted) :
    d.ShowsParts d.rootParts := by
  have hclasses := d.classes_rootComponents
  have hnodup : d.roots.Nodup := h.roots_nodup
  rw [rootParts]
  constructor
  case ne_nil =>
    refine List.forall_mem_map.mpr fun component hcomponent hnil => ?_
    exact ne_nil_of_mem_rootComponents hcomponent (List.map_eq_nil_iff.mp hnil)
  case nodup => exact List.forall_mem_map.mpr fun _ hcomponent => nodup_rootsOf hcomponent hnodup
  case subset => exact List.forall_mem_map.mpr fun _ hcomponent => rootsOf_subset hcomponent
  case disjoint =>
    refine List.pairwise_map.mpr (hclasses.disjoint.imp_of_mem ?_)
    intro a b ha hb hdisjoint r hra hrb
    have hr := rootsOf_subset ha hra
    exact hdisjoint ((mem_rootsOf_iff ha hnodup hr).mp hra) ((mem_rootsOf_iff hb hnodup hr).mp hrb)
  case exists_mem =>
    intro u hu
    have hr := (active_iff hd).mp hu
    obtain ⟨component, hcomponent, hi⟩ :=
      hclasses.exists_mem _ (List.idxOf_lt_length_of_mem hr)
    exact ⟨_, List.mem_map_of_mem hcomponent, (mem_rootsOf_iff hcomponent hnodup hr).mpr hi⟩
  case together_iff =>
    refine List.forall_mem_map.mpr fun component hcomponent u v hu hv hup => ?_
    obtain ⟨i, -, hreaches⟩ := hclasses.class_of component hcomponent
    rw [mem_rootsOf_iff hcomponent hnodup ((active_iff hd).mp hu), hreaches] at hup
    rw [together_iff_reaches hd h hu hv,
      mem_rootsOf_iff hcomponent hnodup ((active_iff hd).mp hv), hreaches]
    have hback := (Adjacency.mutual_ofPairs d.rootPairs_lt).reaches_symm hup
    exact ⟨hup.trans, hback.trans⟩

end RingLayout.Drawing
