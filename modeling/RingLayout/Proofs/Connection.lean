import RingLayout.Embedding
import RingLayout.Proofs.Hops
import RingLayout.Scalar.Double

/-! # Connected graphs

A graph of several components is connected through a hub, which is joined to one member of every
component. The way through the hub is never shorter inside a component, so that distances there
stay what they were; between components they lead through the hub once.
-/

namespace RingLayout.Adjacency

/-- The graph on `n` indices in which the given pairs of distinct indices are joined, with every
list of neighbours in strictly ascending order. -/
structure Cleans (n : Nat) (pairs : List (Nat × Nat)) (adj : Adjacency) : Prop where
  size_eq : adj.size = n
  joins_iff : ∀ u v, adj.Joins u v ↔ u < n ∧ v < n ∧ u ≠ v ∧ ((u, v) ∈ pairs ∨ (v, u) ∈ pairs)
  sorted : ∀ v, (adj.neighbors v).Pairwise (· < ·)

/-- The member through which the component of an index is joined: of the lowest degree, and the
lowest of these. -/
structure Leads (adj : Adjacency) (u r : Nat) : Prop where
  reaches : adj.Reaches u r
  lowest : ∀ v, adj.Reaches u v →
    adj.degree r < adj.degree v ∨ adj.degree r = adj.degree v ∧ r ≤ v

/-! ## Tidy lists -/

theorem neighbors_tidy (adj : Adjacency) (v : Nat) :
    adj.tidy.neighbors v = (adj.neighbors v).mergeSort.eraseDups := by
  rw [tidy, neighbors, neighbors, Array.getD_eq_getD_getElem?, Array.getD_eq_getD_getElem?,
    Array.getElem?_map]
  cases adj[v]? with
  | none => simp
  | some vs => rfl

theorem size_tidy (adj : Adjacency) : adj.tidy.size = adj.size := Array.size_map ..

theorem joins_tidy (adj : Adjacency) (u v : Nat) : adj.tidy.Joins u v ↔ adj.Joins u v := by
  rw [Joins, neighbors_tidy, List.mem_eraseDups, List.mem_mergeSort, Joins]

theorem sorted_tidy (adj : Adjacency) (v : Nat) : (adj.tidy.neighbors v).Pairwise (· < ·) := by
  have hsorted := (List.pairwise_mergeSort' (· ≤ ·) (adj.neighbors v)).sublist
    (eraseDups_sublist _)
  rw [neighbors_tidy]
  exact hsorted.imp₂ (fun _ _ hle hne => Nat.lt_of_le_of_ne hle hne) (nodup_eraseDups _)

/-- The simple graph of pairs joins what the pairs join. -/
theorem cleans_simple (n : Nat) (pairs : List (Nat × Nat)) : Cleans n pairs (simple n pairs) := by
  constructor
  case size_eq => exact (size_tidy _).trans (size_ofPairs _ _)
  case sorted => exact sorted_tidy _
  case joins_iff =>
    intro u v
    rw [simple, joins_tidy, joins_ofPairs, List.mem_filter, List.mem_filter]
    case hpairs =>
      intro p hp
      have hkept := (List.mem_filter.mp hp).2
      simp only [Bool.and_eq_true, decide_eq_true_eq] at hkept
      exact hkept.1
    simp only [Bool.and_eq_true, decide_eq_true_eq, bne_iff_ne]
    constructor
    · rintro (⟨hmem, ⟨hu, hv⟩, hne⟩ | ⟨hmem, ⟨hv, hu⟩, hne⟩)
      · exact ⟨hu, hv, hne, .inl hmem⟩
      · exact ⟨hu, hv, hne.symm, .inr hmem⟩
    · rintro ⟨hu, hv, hne, hmem | hmem⟩
      · exact .inl ⟨hmem, ⟨hu, hv⟩, hne⟩
      · exact .inr ⟨hmem, ⟨hv, hu⟩, hne.symm⟩

theorem Cleans.isMutual {n : Nat} {pairs : List (Nat × Nat)} {adj : Adjacency}
    (h : Cleans n pairs adj) : adj.Mutual where
  symm u v hjoins := by
    rw [h.joins_iff] at hjoins ⊢
    exact ⟨hjoins.2.1, hjoins.1, hjoins.2.2.1.symm, hjoins.2.2.2.symm⟩
  inRange u v hjoins := h.size_eq.symm ▸ ((h.joins_iff u v).mp hjoins).2.1

/-! ## Representatives -/

variable {adj : Adjacency} {u v r s : Nat}

namespace Leads

theorem unique (h : adj.Leads u r) (h' : adj.Leads u s) : r = s := by
  have hrs := h.lowest s h'.reaches
  have hsr := h'.lowest r h.reaches
  omega

/-- The whole component has the same representative. -/
theorem of_reaches (h : adj.Leads u r) (hvu : adj.Reaches v u) (huv : adj.Reaches u v) :
    adj.Leads v r :=
  ⟨hvu.trans h.reaches, fun _ hw => h.lowest _ (huv.trans hw)⟩

end Leads

/-- The representative of a component that is given as a list. -/
def representative (adj : Adjacency) (comp : List Nat) : Nat :=
  adj.lowestDegree (comp.headD 0) comp.tail

theorem leads_representative {comp : List Nat} (hcomp : ∀ v, v ∈ comp ↔ adj.Reaches u v) :
    adj.Leads u (adj.representative comp) := by
  cases comp with
  | nil => exact absurd ((hcomp u).mpr .refl) List.not_mem_nil
  | cons v vs =>
      exact ⟨(hcomp _).mp (adj.lowestDegree_mem v vs),
        fun w hw => adj.lowestDegree_le v vs w ((hcomp w).mpr hw)⟩

theorem representatives_eq (hadj : adj.Mutual) :
    adj.representatives = adj.components.map adj.representative := by
  rw [representatives, ← List.filterMap_eq_map]
  refine List.filterMap_congr fun comp hcomp => ?_
  obtain ⟨u, -, hmem⟩ := (classes_components hadj).class_of comp hcomp
  cases comp with
  | nil => exact absurd ((hmem u).mpr .refl) List.not_mem_nil
  | cons v vs => rfl

theorem mem_representatives_iff (hadj : adj.Mutual) :
    r ∈ adj.representatives ↔ r < adj.size ∧ adj.Leads r r := by
  have hclasses := classes_components hadj
  rw [representatives_eq hadj, List.mem_map]
  constructor
  · rintro ⟨comp, hcomp, rfl⟩
    obtain ⟨u, hu, hmem⟩ := hclasses.class_of comp hcomp
    have hleads := leads_representative hmem
    exact ⟨hadj.lt_of_reaches hu hleads.reaches,
      hleads.of_reaches (hadj.reaches_symm hleads.reaches) hleads.reaches⟩
  · rintro ⟨hr, hleads⟩
    obtain ⟨comp, hcomp, hr⟩ := hclasses.exists_mem r hr
    obtain ⟨u, -, hmem⟩ := hclasses.class_of comp hcomp
    have hur := (hmem r).mp hr
    have hru := hadj.reaches_symm hur
    exact ⟨comp, hcomp, ((leads_representative hmem).of_reaches hru hur).unique hleads⟩

theorem exists_leads (hadj : adj.Mutual) (hu : u < adj.size) :
    ∃ r ∈ adj.representatives, adj.Leads u r := by
  have hclasses := classes_components hadj
  obtain ⟨comp, hcomp, hmem⟩ := hclasses.exists_mem u hu
  obtain ⟨v, -, hreaches⟩ := hclasses.class_of comp hcomp
  have hvu := (hreaches u).mp hmem
  refine ⟨adj.representative comp, ?_, ?_⟩
  · rw [representatives_eq hadj]
    exact List.mem_map_of_mem hcomp
  · exact (leads_representative hreaches).of_reaches (hadj.reaches_symm hvu) hvu

/-- With one representative at most, everything is one component. -/
theorem length_representatives_le_one_iff (hadj : adj.Mutual) :
    adj.representatives.length ≤ 1 ↔ ∀ u < adj.size, ∀ v < adj.size, adj.Reaches u v := by
  have hclasses := classes_components hadj
  rw [representatives_eq hadj, List.length_map]
  constructor
  · intro hle u hu v hv
    obtain ⟨comp, hcomp, hmem⟩ := hclasses.exists_mem u hu
    obtain ⟨comp', hcomp', hmem'⟩ := hclasses.exists_mem v hv
    have hsame : comp = comp' := by
      match hcomps : adj.components with
      | [] => simp [hcomps] at hcomp
      | [only] =>
          rw [hcomps, List.mem_singleton] at hcomp hcomp'
          rw [hcomp, hcomp']
      | _ :: _ :: _ => simp [hcomps] at hle
    subst hsame
    obtain ⟨w, -, hreaches⟩ := hclasses.class_of comp hcomp
    exact (hadj.reaches_symm ((hreaches u).mp hmem)).trans ((hreaches v).mp hmem')
  · intro hall
    match hcomps : adj.components with
    | [] => exact Nat.zero_le 1
    | [_] => exact Nat.le_refl 1
    | first :: second :: rest =>
        rw [hcomps] at hclasses
        obtain ⟨u, hu, hfirst⟩ := hclasses.class_of first List.mem_cons_self
        obtain ⟨v, hv, hsecond⟩ := hclasses.class_of second (by simp)
        have hdisjoint := List.rel_of_pairwise_cons hclasses.disjoint
          (List.mem_cons_self (a := second))
        exact absurd ((hsecond v).mpr .refl) (hdisjoint ((hfirst v).mpr (hall u hu v hv)))

/-! ## The hub -/

theorem size_foldl_modify (joined : List Nat) (n : Nat) (adj : Adjacency) :
    Array.size (joined.foldl (fun a v => a.modify v (· ++ [n])) adj) = adj.size := by
  induction joined generalizing adj with
  | nil => rfl
  | cons v joined ih => exact (ih _).trans Array.size_modify

theorem joins_foldl_modify {joined : List Nat} (n : Nat) {adj : Adjacency}
    (hjoined : ∀ r ∈ joined, r < adj.size) (u v : Nat) :
    Joins (joined.foldl (fun a v => a.modify v (· ++ [n])) adj) u v ↔
      adj.Joins u v ∨ u ∈ joined ∧ v = n := by
  induction joined generalizing adj with
  | nil => simp
  | cons r joined ih =>
      obtain ⟨hr, hrest⟩ := List.forall_mem_cons.mp hjoined
      have hrest' : ∀ s ∈ joined, s < Array.size (adj.modify r (· ++ [n])) := by
        rwa [Array.size_modify]
      rw [List.foldl_cons, ih hrest', joins_modify hr, List.mem_cons, or_assoc, or_and_right]

theorem joins_push (adj : Adjacency) (vs : List Nat) (u v : Nat) :
    Joins (adj.push vs) u v ↔ if u = adj.size then v ∈ vs else adj.Joins u v := by
  simp only [Joins, neighbors, Array.getD_eq_getD_getElem?, Array.getElem?_push]
  split <;> rfl

/-- A graph with one index more, the hub, which is joined to the representatives. -/
structure Hubbed (adj adj' : Adjacency) : Prop where
  size_eq : adj'.size = adj.size + 1
  joins_iff : ∀ u v, adj'.Joins u v ↔ adj.Joins u v ∨
    u ∈ adj.representatives ∧ v = adj.size ∨ u = adj.size ∧ v ∈ adj.representatives

theorem connected_eq_simple {n : Nat} {pairs : List (Nat × Nat)}
    (h : (simple n pairs).representatives.length ≤ 1) : connected n pairs = simple n pairs := by
  unfold connected
  exact if_pos h

theorem hubbed_connected {n : Nat} {pairs : List (Nat × Nat)}
    (h : ¬(simple n pairs).representatives.length ≤ 1) :
    Hubbed (simple n pairs) (connected n pairs) := by
  have hclean := cleans_simple n pairs
  have hmutual := hclean.isMutual
  have hlt : ∀ r ∈ (simple n pairs).representatives, r < (simple n pairs).size := fun r hr =>
    ((mem_representatives_iff hmutual).mp hr).1
  unfold connected
  dsimp only
  rw [if_neg h]
  constructor
  case size_eq => rw [size_tidy, Array.size_push, size_foldl_modify]
  case joins_iff =>
    intro u v
    rw [joins_tidy, joins_push, size_foldl_modify, joins_foldl_modify n hlt, hclean.size_eq]
    by_cases hu : u = n
    · -- the hub is behind the last index, so that it had no neighbours
      have hnone : ¬(simple n pairs).Joins u v := fun hjoins =>
        absurd ((hclean.joins_iff u v).mp hjoins).1 (by omega)
      have hnot : u ∉ (simple n pairs).representatives := fun hmem => by
        have hlast := hlt u hmem
        rw [hclean.size_eq] at hlast
        omega
      simp [hu ▸ hnone, hu ▸ hnot, hu]
    · simp [hu]

theorem sorted_connected (n : Nat) (pairs : List (Nat × Nat)) (v : Nat) :
    ((connected n pairs).neighbors v).Pairwise (· < ·) := by
  unfold connected
  dsimp only
  split
  · exact (cleans_simple n pairs).sorted v
  · exact sorted_tidy _ v

/-! ## Ways through the hub -/

/-- What a walk of at most `k` steps from `u` amounts to in the parts: it stays in the component,
or leaves it at its representative `r` for the hub, and may go on from the representative of another
component. -/
inductive Route (adj : Adjacency) (u r k : Nat) : Nat → Prop
  | within {j w : Nat} : j ≤ k → adj.Steps u j w → Route adj u r k w
  | atHub {j : Nat} : j + 1 ≤ k → adj.Steps u j r → Route adj u r k adj.size
  | across {i j s w : Nat} : i + 2 + j ≤ k → w < adj.size → adj.Leads w s → adj.Steps u i r →
      adj.Steps s j w → Route adj u r k w

namespace Hubbed

variable {adj' : Adjacency}

theorem mono (h : Hubbed adj adj') {k : Nat} (hsteps : adj.Steps u k v) : adj'.Steps u k v :=
  hsteps.mono fun _ _ hjoins => (h.joins_iff _ _).mpr (.inl hjoins)

/-- Every walk is a route. -/
theorem route (h : Hubbed adj adj') (hadj : adj.Mutual) (hu : u < adj.size) (hr : adj.Leads u r)
    {k w : Nat} (hsteps : adj'.Steps u k w) : Route adj u r k w := by
  have hleads : ∀ {s}, s ∈ adj.representatives → adj.Leads s s := fun hs =>
    ((mem_representatives_iff hadj).mp hs).2
  have hlt : ∀ {s}, s ∈ adj.representatives → s < adj.size := fun hs =>
    ((mem_representatives_iff hadj).mp hs).1
  induction hsteps with
  | refl => exact .within (Nat.le_refl 0) .refl
  | @tail k x w _ hjoins ih =>
      rcases (h.joins_iff x w).mp hjoins with hold | ⟨hx, rfl⟩ | ⟨rfl, hw⟩
      · -- an edge of the graph itself goes on where the walk is
        cases ih with
        | within hj hsteps => exact .within (Nat.succ_le_succ hj) (hsteps.tail hold)
        | atHub _ _ => exact absurd (hadj.inRange _ _ (hadj.symm _ _ hold)) (Nat.lt_irrefl _)
        | across hk _ hs hout hsteps =>
            refine .across (Nat.succ_le_succ hk) (hadj.inRange _ _ hold) ?_ hout (hsteps.tail hold)
            exact hs.of_reaches (.single (hadj.symm _ _ hold)) (.single hold)
      · cases ih with
        | within hj hsteps =>
            obtain rfl := hr.unique ((hleads hx).of_reaches hsteps.reaches
              (hadj.reaches_symm hsteps.reaches))
            exact .atHub (Nat.succ_le_succ hj) hsteps
        | atHub _ _ => exact absurd (hlt hx) (Nat.lt_irrefl _)
        | across hk _ _ hout _ => exact .atHub (by omega) hout
      · cases ih with
        | within _ hsteps =>
            exact absurd (hadj.lt_of_reaches hu hsteps.reaches) (Nat.lt_irrefl _)
        | atHub hk hout => exact .across (by omega) (hlt hw) (hleads hw) hout .refl
        | across _ hlast _ _ _ => exact absurd hlast (Nat.lt_irrefl _)

/-- Inside a component no way is shorter. -/
theorem away_within (h : Hubbed adj adj') (hadj : adj.Mutual) (hu : u < adj.size) {d : Nat}
    (haway : adj.Away u v d) : adj'.Away u v d := by
  refine ⟨h.mono haway.steps, fun k hsteps => ?_⟩
  obtain ⟨r, -, hr⟩ := exists_leads hadj hu
  have hreaches := haway.steps.reaches
  cases h.route hadj hu hr hsteps with
  | within hj hsteps => exact (haway.le _ hsteps).trans hj
  | atHub _ _ => exact absurd (hadj.lt_of_reaches hu hreaches) (Nat.lt_irrefl _)
  | across hk _ hs hout hin =>
      obtain rfl := hr.unique (hs.of_reaches hreaches (hadj.reaches_symm hreaches))
      have hle := haway.le _ (hout.trans hin)
      omega

/-- Between components the shortest way leads through both representatives and the hub. -/
theorem away_across (h : Hubbed adj adj') (hadj : adj.Mutual) (hu : u < adj.size)
    (hv : v < adj.size) (hapart : ¬adj.Reaches u v) (hr : adj.Leads u r) (hs : adj.Leads v s)
    {a b : Nat} (ha : adj.Away u r a) (hb : adj.Away s v b) : adj'.Away u v (a + 2 + b) := by
  have hrep : ∀ {x y}, x < adj.size → adj.Leads x y → y ∈ adj.representatives := by
    intro x y hx hy
    refine (mem_representatives_iff hadj).mpr ⟨hadj.lt_of_reaches hx hy.reaches, ?_⟩
    exact hy.of_reaches (hadj.reaches_symm hy.reaches) hy.reaches
  have hout : adj'.Joins r adj.size := (h.joins_iff _ _).mpr (.inr (.inl ⟨hrep hu hr, rfl⟩))
  have hin : adj'.Joins adj.size s := (h.joins_iff _ _).mpr (.inr (.inr ⟨rfl, hrep hv hs⟩))
  refine ⟨(((h.mono ha.steps).tail hout).tail hin).trans (h.mono hb.steps), fun k hsteps => ?_⟩
  cases h.route hadj hu hr hsteps with
  | within _ hsteps => exact absurd hsteps.reaches hapart
  | atHub _ _ => exact absurd hv (Nat.lt_irrefl _)
  | across hk _ hs' hout hin =>
      obtain rfl := hs.unique hs'
      have hleA := ha.le _ hout
      have hleB := hb.le _ hin
      omega

theorem lt_size (h : Hubbed adj adj') (hu : u < adj.size) : u < adj'.size := by
  rw [h.size_eq]
  exact hu.trans (Nat.lt_succ_self _)

theorem isMutual (h : Hubbed adj adj') (hadj : adj.Mutual) : adj'.Mutual where
  symm u v hjoins := by
    rw [h.joins_iff] at hjoins ⊢
    exact hjoins.imp (hadj.symm u v) fun hhub => hhub.symm.imp And.symm And.symm
  inRange u v hjoins := by
    rw [h.size_eq]
    rcases (h.joins_iff u v).mp hjoins with hold | ⟨-, rfl⟩ | ⟨-, hv⟩
    · exact (hadj.inRange u v hold).trans (Nat.lt_succ_self _)
    · exact Nat.lt_succ_self _
    · exact ((mem_representatives_iff hadj).mp hv).1.trans (Nat.lt_succ_self _)

/-- Every index reaches the hub through its representative. -/
theorem reaches_hub (h : Hubbed adj adj') (hadj : adj.Mutual) (hu : u < adj'.size) :
    adj'.Reaches u adj.size := by
  rw [h.size_eq] at hu
  rcases Nat.lt_succ_iff_lt_or_eq.mp hu with hlt | rfl
  · obtain ⟨r, hr, hleads⟩ := exists_leads hadj hlt
    have hold : adj'.Reaches u r := Relation.ReflTransGen.mono
      (fun _ _ hjoins => (h.joins_iff _ _).mpr (.inl hjoins)) _ _ hleads.reaches
    exact hold.tail ((h.joins_iff r _).mpr (.inr (.inl ⟨hr, rfl⟩)))
  · exact .refl

theorem reaches (h : Hubbed adj adj') (hadj : adj.Mutual) (hu : u < adj'.size)
    (hv : v < adj'.size) : adj'.Reaches u v :=
  (h.reaches_hub hadj hu).trans ((h.isMutual hadj).reaches_symm (h.reaches_hub hadj hv))

theorem irrefl (h : Hubbed adj adj') (hadj : adj.Mutual) (hself : ¬adj.Joins u u) :
    ¬adj'.Joins u u := by
  have hrep : ∀ {x}, x ∈ adj.representatives → x < adj.size := fun hx =>
    ((mem_representatives_iff hadj).mp hx).1
  intro hjoins
  rcases (h.joins_iff u u).mp hjoins with hold | ⟨hu, heq⟩ | ⟨heq, hu⟩
  · exact hself hold
  · exact absurd (hrep hu) (heq ▸ Nat.lt_irrefl _)
  · exact absurd (hrep hu) (heq ▸ Nat.lt_irrefl _)

/-- No edge of the graph itself comes or goes. -/
theorem joins_old_iff (h : Hubbed adj adj') (hu : u < adj.size) (hv : v < adj.size) :
    adj'.Joins u v ↔ adj.Joins u v := by
  rw [h.joins_iff]
  refine or_iff_left ?_
  rintro (⟨-, rfl⟩ | ⟨rfl, -⟩)
  · exact Nat.lt_irrefl _ hv
  · exact Nat.lt_irrefl _ hu

/-- In a component the hub is joined to the representative alone. -/
theorem joins_hub_iff (h : Hubbed adj adj') (hadj : adj.Mutual) (hu : u < adj.size)
    (hr : r ∈ adj.representatives) (hleads : adj.Leads u r) (hv : adj.Reaches u v) :
    adj'.Joins adj.size v ↔ v = r := by
  have hnone : ¬adj.Joins adj.size v := fun hjoins =>
    Nat.lt_irrefl _ (hadj.inRange v _ (hadj.symm _ v hjoins))
  have hv' := (hadj.lt_of_reaches hu hv).ne
  rw [h.joins_iff, or_iff_right hnone, or_iff_right fun h => hv' h.2, and_iff_right rfl]
  constructor
  · intro hmem
    have hself := ((mem_representatives_iff hadj).mp hmem).2
    exact (hself.of_reaches hv (hadj.reaches_symm hv)).unique hleads
  · rintro rfl
    exact hr

theorem hops_within (h : Hubbed adj adj') (hadj : adj.Mutual) (hu : u < adj.size)
    (hv : adj.Reaches u v) : (adj'.hopsFrom u)[v]? = (adj.hopsFrom u)[v]? := by
  obtain ⟨d, haway⟩ := hv.exists_away
  rw [(hopsFrom_eq_some_iff hadj.inRange hu).mpr haway,
    hopsFrom_eq_some_iff (h.isMutual hadj).inRange (h.lt_size hu)]
  exact h.away_within hadj hu haway

theorem hops_across (h : Hubbed adj adj') (hadj : adj.Mutual) (hu : u < adj.size)
    (hv : v < adj.size) (huv : ¬adj.Reaches u v) :
    ∃ r s a b, adj.Leads u r ∧ adj.Leads v s ∧ (adj.hopsFrom u)[r]? = some (some a) ∧
      (adj.hopsFrom s)[v]? = some (some b) ∧ (adj'.hopsFrom u)[v]? = some (some (a + 2 + b)) := by
  obtain ⟨r, -, hr⟩ := exists_leads hadj hu
  obtain ⟨s, -, hs⟩ := exists_leads hadj hv
  obtain ⟨a, ha⟩ := hr.reaches.exists_away
  obtain ⟨b, hb⟩ := (hadj.reaches_symm hs.reaches).exists_away
  refine ⟨r, s, a, b, hr, hs, ?_, ?_, ?_⟩
  · exact (hopsFrom_eq_some_iff hadj.inRange hu).mpr ha
  · exact (hopsFrom_eq_some_iff hadj.inRange (hadj.lt_of_reaches hv hs.reaches)).mpr hb
  · exact (hopsFrom_eq_some_iff (h.isMutual hadj).inRange (h.lt_size hu)).mpr
      (h.away_across hadj hu hv huv hr hs ha hb)

end Hubbed

/-! ## The connected graph -/

/-- The second graph connects the components of the first, through one hub if there are several. -/
structure Connects (adj adj' : Adjacency) : Prop where
  symm : ∀ u v, adj'.Joins u v → adj'.Joins v u
  irrefl : ∀ u, ¬adj'.Joins u u
  sorted : ∀ u, (adj'.neighbors u).Pairwise (· < ·)
  lt_size : ∀ u v, adj'.Joins u v → u < adj'.size ∧ v < adj'.size
  reaches : ∀ u < adj'.size, ∀ v < adj'.size, adj'.Reaches u v
  /-- A graph with one component or none stays as it is. -/
  eq_self : (∀ u < adj.size, ∀ v < adj.size, adj.Reaches u v) → adj' = adj
  size_eq : (¬∀ u < adj.size, ∀ v < adj.size, adj.Reaches u v) → adj'.size = adj.size + 1
  joins_iff : ∀ u < adj.size, ∀ v < adj.size, (adj'.Joins u v ↔ adj.Joins u v)
  /-- Of every component the hub is joined to the representative and to nothing else. -/
  joins_hub_iff : adj'.size = adj.size + 1 → ∀ u < adj.size,
    ∃ r, adj.Leads u r ∧ ∀ v, adj.Reaches u v → (adj'.Joins adj.size v ↔ v = r)
  hops_eq_some : ∀ u < adj'.size, ∀ v < adj'.size, ∃ d, (adj'.hopsFrom u)[v]? = some (some d)
  hops_within : ∀ u < adj.size, ∀ v, adj.Reaches u v →
    (adj'.hopsFrom u)[v]? = (adj.hopsFrom u)[v]?
  hops_across : ∀ u < adj.size, ∀ v < adj.size, ¬adj.Reaches u v →
    ∃ r s a b, adj.Leads u r ∧ adj.Leads v s ∧ (adj.hopsFrom u)[r]? = some (some a) ∧
      (adj.hopsFrom s)[v]? = some (some b) ∧ (adj'.hopsFrom u)[v]? = some (some (a + 2 + b))
  /-- Two indices in all are indices of the graph itself. -/
  pair : adj'.size = 2 → adj.size = 2

theorem Mutual.hops_eq_some (hadj : adj.Mutual) (hu : u < adj.size) (h : adj.Reaches u v) :
    ∃ d, (adj.hopsFrom u)[v]? = some (some d) :=
  h.exists_away.imp fun _ haway => (hopsFrom_eq_some_iff hadj.inRange hu).mpr haway

theorem Cleans.connects_self {n : Nat} {pairs : List (Nat × Nat)} (h : Cleans n pairs adj)
    (hall : ∀ u < adj.size, ∀ v < adj.size, adj.Reaches u v) : Connects adj adj where
  symm := h.isMutual.symm
  irrefl u hjoins := ((h.joins_iff u u).mp hjoins).2.2.1 rfl
  sorted := h.sorted
  lt_size u v hjoins :=
    ⟨h.isMutual.inRange v u (h.isMutual.symm u v hjoins), h.isMutual.inRange u v hjoins⟩
  reaches := hall
  eq_self _ := rfl
  size_eq hnot := absurd hall hnot
  joins_iff _ _ _ _ := Iff.rfl
  joins_hub_iff hsize := by omega
  hops_eq_some u hu v hv := h.isMutual.hops_eq_some hu (hall u hu v hv)
  hops_within _ _ _ _ := rfl
  hops_across u hu v hv hapart := absurd (hall u hu v hv) hapart
  pair := id

theorem Hubbed.connects {n : Nat} {pairs : List (Nat × Nat)} {adj' : Adjacency}
    (h : Hubbed adj adj') (hclean : Cleans n pairs adj)
    (hsorted : ∀ u, (adj'.neighbors u).Pairwise (· < ·))
    (hapart : ¬∀ u < adj.size, ∀ v < adj.size, adj.Reaches u v) : Connects adj adj' := by
  have hadj := hclean.isMutual
  have hadj' := h.isMutual hadj
  constructor
  case symm => exact hadj'.symm
  case sorted => exact hsorted
  case reaches => exact fun _ hu _ hv => h.reaches hadj hu hv
  case size_eq => exact fun _ => h.size_eq
  case eq_self => exact fun hall => absurd hall hapart
  case irrefl => exact fun u => h.irrefl hadj fun hold => ((hclean.joins_iff u u).mp hold).2.2.1 rfl
  case lt_size =>
    exact fun u v hjoins => ⟨hadj'.inRange v u (hadj'.symm u v hjoins), hadj'.inRange u v hjoins⟩
  case joins_iff => exact fun _ hu _ hv => h.joins_old_iff hu hv
  case joins_hub_iff =>
    intro _ u hu
    obtain ⟨r, hr, hleads⟩ := exists_leads hadj hu
    exact ⟨r, hleads, fun v hv => h.joins_hub_iff hadj hu hr hleads hv⟩
  case hops_eq_some => exact fun u hu v hv => hadj'.hops_eq_some hu (h.reaches hadj hu hv)
  case hops_within => exact fun _ hu _ hv => h.hops_within hadj hu hv
  case hops_across => exact fun _ hu _ hv huv => h.hops_across hadj hu hv huv
  case pair =>
    intro hsize
    -- a single index would be connected with itself
    refine absurd (fun u hu v hv => ?_) hapart
    rw [h.size_eq] at hsize
    have huv : u = v := by omega
    exact huv ▸ .refl

/-- The graph that distances are taken in connects the simple graph of the pairs, and nodes are
placed side by side only when there are two of them. -/
theorem connects_connected {K : Type} [Scalar K] (n : Nat) (pairs : List (Nat × Nat)) :
    Cleans n pairs (simple n pairs) ∧ Connects (simple n pairs) (connected n pairs) ∧
      ∀ (centers : List (Point K)) (sizes : List (K × K)) (s : Embedding.Settings K)
        (rng : Random), centers.length = n → sizes.length = n → (connected n pairs).size = 2 →
        ∃ p q a b, centers = [p, q] ∧ sizes = [a, b] ∧
          Embedding.embed centers sizes pairs s rng =
            (.shortcut, [p, ⟨p.x + a.1 / 2.0 + b.1 / 2.0 + s.edgeLength, p.y⟩], rng) := by
  have hclean := cleans_simple n pairs
  have hconnects : Connects (simple n pairs) (connected n pairs) := by
    have hone := length_representatives_le_one_iff hclean.isMutual
    by_cases hle : (simple n pairs).representatives.length ≤ 1
    · rw [connected_eq_simple hle]
      exact hclean.connects_self (hone.mp hle)
    · exact (hubbed_connected hle).connects hclean (sorted_connected n pairs) (mt hone.mpr hle)
  refine ⟨hclean, hconnects, fun centers sizes s rng hcenters hsizes hsize => ?_⟩
  obtain rfl : n = 2 := hclean.size_eq.symm.trans (hconnects.pair hsize)
  obtain ⟨p, q, rfl⟩ := List.length_eq_two.mp hcenters
  obtain ⟨a, b, rfl⟩ := List.length_eq_two.mp hsizes
  refine ⟨p, q, a, b, rfl, rfl, ?_⟩
  unfold Embedding.embed
  simp only [List.length_cons, List.length_nil, hsize]
  rfl

/-- A path and a triangle, with a pair given twice, a loop and an index out of range. -/
def pathAndTriangle : List (Nat × Nat) :=
  [(0, 1), (1, 2), (3, 4), (4, 5), (5, 3), (1, 0), (1, 1), (2, 9)]

/-- From the end of the path to a corner of the triangle it is two steps to the other end, two
through the hub and one to the corner. -/
example : ((connected 6 pathAndTriangle).hopsFrom 2)[4]? = some (some 5) := by cbv

theorem not_reaches_pathAndTriangle : ¬(simple 6 pathAndTriangle).Reaches 2 4 := by
  have hstay : ∀ v, (simple 6 pathAndTriangle).Reaches 2 v → v < 3 := by
    intro v hv
    induction hv with
    | refl => decide
    | @tail w v _ hjoins hw =>
        obtain ⟨-, hv, -, hmem⟩ := ((cleans_simple 6 pathAndTriangle).joins_iff w v).mp hjoins
        simp only [pathAndTriangle, List.mem_cons, Prod.mk.injEq, List.not_mem_nil, or_false]
          at hmem
        omega
  intro h
  exact absurd (hstay 4 h) (by decide)

/-- One link connects two nodes, and no hub is needed. -/
theorem size_connected_pair : (connected 2 [(1, 0), (1, 1)]).size = 2 := by
  have hclean := cleans_simple 2 [(1, 0), (1, 1)]
  have hadj := hclean.isMutual
  have hlink : (simple 2 [(1, 0), (1, 1)]).Reaches 0 1 :=
    .single ((hclean.joins_iff 0 1).mpr (by simp))
  rw [connected_eq_simple ((length_representatives_le_one_iff hadj).mpr ?_), hclean.size_eq]
  rw [hclean.size_eq]
  intro u hu v hv
  obtain rfl | rfl : u = 0 ∨ u = 1 := by omega
  all_goals obtain rfl | rfl : v = 0 ∨ v = 1 := by omega
  exacts [.refl, hlink, hadj.reaches_symm hlink, .refl]

theorem connects_connected_pathAndTriangle :
    (¬(simple 6 pathAndTriangle).Reaches 2 4 ∧
      ∃ r s a b, (simple 6 pathAndTriangle).Leads 2 r ∧ (simple 6 pathAndTriangle).Leads 4 s ∧
        ((simple 6 pathAndTriangle).hopsFrom 2)[r]? = some (some a) ∧
        ((simple 6 pathAndTriangle).hopsFrom s)[4]? = some (some b) ∧
        ((connected 6 pathAndTriangle).hopsFrom 2)[4]? = some (some (a + 2 + b))) ∧
    (connected 2 [(1, 0), (1, 1)]).size = 2 ∧
      Embedding.embed (K := Float) [⟨5.0, 7.0⟩, ⟨0.0, 0.0⟩] [(30.0, 20.0), (50.0, 20.0)]
          [(1, 0), (1, 1)] ⟨.greedy, 25, 12.5, 50.0, 1e-7⟩ (Random.ofSeed 1) =
        (.shortcut, [⟨5.0, 7.0⟩, ⟨5.0 + 30.0 / 2.0 + 50.0 / 2.0 + 50.0, 7.0⟩],
          Random.ofSeed 1) := by
  have hsize : (simple 6 pathAndTriangle).size = 6 := (cleans_simple 6 pathAndTriangle).size_eq
  obtain ⟨-, hconnects, -⟩ := connects_connected (K := Float) 6 pathAndTriangle
  have hpair := size_connected_pair
  refine ⟨⟨not_reaches_pathAndTriangle, ?_⟩, hpair, ?_⟩
  · exact hconnects.hops_across 2 (by omega) 4 (by omega) not_reaches_pathAndTriangle
  · obtain ⟨p, q, a, b, hcenters, hsizes, hembed⟩ :=
      (connects_connected (K := Float) 2 [(1, 0), (1, 1)]).2.2 [⟨5.0, 7.0⟩, ⟨0.0, 0.0⟩]
        [(30.0, 20.0), (50.0, 20.0)] ⟨.greedy, 25, 12.5, 50.0, 1e-7⟩ (Random.ofSeed 1) rfl rfl hpair
    cases hcenters
    cases hsizes
    exact hembed

end RingLayout.Adjacency
