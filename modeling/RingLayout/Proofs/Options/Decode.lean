import Mathlib.Data.List.Pairwise
import RingLayout.Proofs.Options.Grammar

/-! # Reading JSON options

JSON options are accepted if all fields given are, and then every field has the value given or its
default. Neither the order of the fields nor unknown ones among them play a part, and an array is
read as the object with the names of the fields in their order.
-/

namespace RingLayout.Options

variable {seen : List String} {entries entries' : List (String × Json)} {o o' : Options Float}

/-! ## Names -/

theorem names_nodup : (slots.flatMap Slot.names).Nodup := by
  simp [slots, Slot.names]

/-- A name belongs to one field. -/
theorem eq_of_mem_names {s t : Slot} (hs : s ∈ slots) (ht : t ∈ slots) {name : String}
    (hsname : name ∈ s.names) (htname : name ∈ t.names) : s = t := by
  by_contra hne
  have hdisjoint := (List.nodup_flatMap.mp names_nodup).2
  have hsymm : Std.Symm (Function.onFun List.Disjoint Slot.names) := ⟨fun _ _ h _ ha hb => h hb ha⟩
  exact hdisjoint.forall hs ht hne hsname htname

theorem eq_of_name_eq {s t : Slot} (hs : s ∈ slots) (ht : t ∈ slots) (h : s.name = t.name) :
    s = t :=
  eq_of_mem_names hs ht List.mem_cons_self (h ▸ List.mem_cons_self)

theorem Serves.answersTo_iff {f : Field} {s : Slot} (h : Serves f s) (name : String) :
    f.answersTo name = true ↔ name ∈ s.names := by
  rw [Field.answersTo, h.name_eq, h.aliases_eq, Slot.names, Bool.or_eq_true, beq_iff_eq,
    List.contains_iff_mem, List.mem_cons, eq_comm]

/-- A name leads to the reader of its field, or to none. -/
theorem find?_answersTo {fs : List Field} {ss : List Slot} (h : List.Forall₂ Serves fs ss)
    (name : String) :
    (∃ f s, fs.find? (·.answersTo name) = some f ∧ s ∈ ss ∧ Serves f s ∧ name ∈ s.names) ∨
      fs.find? (·.answersTo name) = none ∧ ∀ s ∈ ss, name ∉ s.names := by
  induction h with
  | nil => exact Or.inr ⟨rfl, by simp⟩
  | @cons f s fs ss hserves _ ih =>
      by_cases hname : name ∈ s.names
      · have hanswers := (hserves.answersTo_iff name).mpr hname
        exact Or.inl ⟨f, s, List.find?_cons_of_pos hanswers, List.mem_cons_self, hserves, hname⟩
      · have hsilent : ¬f.answersTo name = true := mt (hserves.answersTo_iff name).mp hname
        have hskip : (f :: fs).find? (·.answersTo name) = fs.find? (·.answersTo name) :=
          List.find?_cons_of_neg hsilent
        rw [hskip]
        rcases ih with ⟨g, t, hfind, ht, hg⟩ | ⟨hfind, hnone⟩
        · exact Or.inl ⟨g, t, hfind, List.mem_cons_of_mem s ht, hg⟩
        · exact Or.inr ⟨hfind, List.forall_mem_cons.mpr ⟨hname, hnone⟩⟩

/-! ## Objects -/

/-- Two entries that do not belong to one field. -/
def Apart (p q : String × Json) : Prop := ∀ s ∈ slots, p.1 ∈ s.names → q.1 ∉ s.names

/-- What the entries of an object, read one after the other, make of options. -/
structure ReadFrom (seen : List String) (entries : List (String × Json)) (o o' : Options Float) :
    Prop where
  given : ∀ s ∈ slots, ∀ p ∈ entries, p.1 ∈ s.names → s.name ∉ seen ∧ Reads s.kind p.2 (s.get o')
  kept : ∀ s ∈ slots, (∀ p ∈ entries, p.1 ∉ s.names) → s.get o' = s.get o
  clustering_eq : o'.clustering = o.clustering
  apart : entries.Pairwise Apart

theorem readFrom_of_readObject (hproper : ∀ p ∈ entries, p.2.Proper)
    (h : readObject seen entries o = .ok o') : ReadFrom seen entries o o' := by
  induction entries generalizing seen o with
  | nil =>
      cases h
      exact ⟨by simp, fun _ _ _ => rfl, rfl, .nil⟩
  | cons entry rest ih =>
      obtain ⟨name, v⟩ := entry
      obtain ⟨hv, hrest⟩ := List.forall_mem_cons.mp hproper
      rw [readObject] at h
      rcases find?_answersTo serves_fields name with
        ⟨f, s, hfind, hs, hserves, hname⟩ | ⟨hfind, hunknown⟩
      · rw [hfind] at h
        dsimp only at h
        split at h
        next => cases h
        next hfresh =>
          obtain ⟨first, hset, h⟩ := Drawing.bind_eq_ok h
          rw [List.contains_iff_mem, hserves.name_eq] at hfresh
          obtain ⟨hgiven, hkept, hclustering, hapart⟩ := ih hrest h
          rw [hserves.name_eq] at hgiven
          have hsame := hserves.same hset
          -- the field has been seen now, so no other entry belongs to it
          have honce : ∀ p ∈ rest, p.1 ∉ s.names := fun p hp hmem =>
            (hgiven s hs p hp hmem).1 List.mem_cons_self
          constructor
          case given =>
            refine fun t ht => List.forall_mem_cons.mpr ⟨fun hmem => ?_, fun p hp hmem => ?_⟩
            · obtain rfl := eq_of_mem_names hs ht hname hmem
              rw [hkept s hs honce]
              exact ⟨hfresh, hserves.reads hv hset⟩
            · obtain ⟨hseen, hreads⟩ := hgiven t ht p hp hmem
              exact ⟨fun hmem => hseen (List.mem_cons_of_mem _ hmem), hreads⟩
          case kept =>
            intro t ht hnone
            obtain ⟨hfirst, hnone⟩ := List.forall_mem_cons.mp hnone
            rw [hkept t ht hnone]
            refine hsame.get_eq t ht fun hnames => hfirst ?_
            exact eq_of_name_eq ht hs hnames ▸ hname
          case clustering_eq => rw [hclustering, hsame.clustering_eq]
          case apart =>
            refine .cons (fun p hp t ht hmem => ?_) hapart
            obtain rfl := eq_of_mem_names hs ht hname hmem
            exact honce p hp
      · rw [hfind] at h
        obtain ⟨hgiven, hkept, hclustering, hapart⟩ := ih hrest h
        constructor
        case given =>
          refine fun t ht => List.forall_mem_cons.mpr ⟨fun hmem => ?_, hgiven t ht⟩
          exact absurd hmem (hunknown t ht)
        case kept => exact fun t ht hnone => hkept t ht (List.forall_mem_cons.mp hnone).2
        case clustering_eq => exact hclustering
        case apart => exact .cons (fun p _ t ht hmem => absurd hmem (hunknown t ht)) hapart

theorem exists_readObject (hgiven : ∀ s ∈ slots, ∀ p ∈ entries, p.1 ∈ s.names →
      s.name ∉ seen ∧ ∃ a, Reads s.kind p.2 a) (hapart : entries.Pairwise Apart) :
    ∃ o', readObject seen entries o = .ok o' := by
  induction entries generalizing seen o with
  | nil => exact ⟨o, rfl⟩
  | cons entry rest ih =>
      obtain ⟨name, v⟩ := entry
      obtain ⟨hfirst, hapart⟩ := List.pairwise_cons.mp hapart
      rw [readObject]
      rcases find?_answersTo serves_fields name with
        ⟨f, s, hfind, hs, hserves, hname⟩ | ⟨hfind, -⟩
      · obtain ⟨hfresh, a, ha⟩ := hgiven s hs _ List.mem_cons_self hname
        obtain ⟨first, hset⟩ := hserves.accepts ha o
        rw [hfind]
        dsimp only
        rw [if_neg (by rwa [List.contains_iff_mem, hserves.name_eq]), hset]
        refine ih (fun t ht p hp hmem => ?_) hapart
        obtain ⟨hseen, hreads⟩ := hgiven t ht p (List.mem_cons_of_mem _ hp) hmem
        refine ⟨?_, hreads⟩
        rw [List.mem_cons, not_or, hserves.name_eq]
        refine ⟨fun hnames => ?_, hseen⟩
        exact hfirst p hp s hs hname (eq_of_name_eq ht hs hnames ▸ hmem)
      · rw [hfind]
        exact ih (fun t ht p hp => hgiven t ht p (List.mem_cons_of_mem _ hp)) hapart

/-! ## Arrays -/

/-- A field is found under its name. -/
theorem find?_name : ∀ f ∈ fields, fields.find? (·.answersTo f.name) = some f := by
  simp [fields, Field.reading, Field.answersTo]

theorem names_fields : fields.map (·.name) = slots.map (·.name) := rfl

/-- The entries of an array are read like those of the object that names them. -/
theorem readEntries_eq_readObject {fs : List Field} {items : List Json} (hfs : ∀ f ∈ fs, f ∈ fields)
    (hnames : (fs.map (·.name)).Nodup) (hseen : ∀ f ∈ fs, f.name ∉ seen) :
    readEntries fs items o = readObject seen ((fs.map (·.name)).zip items) o := by
  induction fs generalizing items seen o with
  | nil => rfl
  | cons f fs ih =>
      cases items with
      | nil => rfl
      | cons v vs =>
          obtain ⟨hf, hfs⟩ := List.forall_mem_cons.mp hfs
          obtain ⟨hname, hnames⟩ := List.nodup_cons.mp hnames
          obtain ⟨hfresh, hseen⟩ := List.forall_mem_cons.mp hseen
          rw [List.map_cons, List.zip_cons_cons, readObject, find?_name f hf]
          dsimp only
          rw [if_neg (by rwa [List.contains_iff_mem])]
          refine congrArg (f.set v o >>= ·) (funext fun first => ih hfs hnames fun g hg => ?_)
          rw [List.mem_cons, not_or]
          exact ⟨fun heq => hname (List.mem_map.mpr ⟨g, hg, heq⟩), hseen g hg⟩

/-! ## Clusters -/

theorem mapM_eq_ok_iff {α : Type} {item : Json → Except OptionError α} {write : α → Json}
    (hitem : ∀ v a, item v = .ok a ↔ v = write a) (items : List Json) (as : List α) :
    items.mapM item = .ok as ↔ items = as.map write := by
  induction items generalizing as with
  | nil =>
      rw [List.mapM_nil, List.nil_eq, List.map_eq_nil_iff, eq_comm]
      exact ⟨fun h => (Except.ok.inj h), congrArg Except.ok⟩
  | cons v vs ih =>
      rw [List.mapM_cons]
      constructor
      · intro h
        obtain ⟨a, ha, h⟩ := Drawing.bind_eq_ok h
        obtain ⟨rest, hrest, h⟩ := Drawing.bind_eq_ok h
        cases h
        rw [List.map_cons, ← (ih rest).mp hrest, ← (hitem v a).mp ha]
      · intro h
        cases as with
        | nil => cases h
        | cons a rest =>
            obtain ⟨hv, hvs⟩ := List.cons.inj h
            rw [(hitem v a).mpr hv, (ih rest).mpr hvs]
            rfl

theorem listOf_eq_ok_iff {α : Type} {item : Json → Except OptionError α} {write : α → Json}
    (hitem : ∀ v a, item v = .ok a ↔ v = write a) (v : Json) (as : List α) :
    v.listOf item = .ok as ↔ v = .list (as.map write) := by
  cases v with
  | list items =>
      rw [Json.list.injEq]
      exact mapM_eq_ok_iff hitem items as
  | _ => exact iff_of_false nofun nofun

theorem cells_eq_ok_iff (v : Json) (cells : List (List String)) :
    v.listOf (Json.listOf Json.string) = .ok cells ↔ v = .ofCells cells := by
  have hstring : ∀ (v : Json) s, v.string = .ok s ↔ v = .text s := by
    intro v s
    cases v with
    | text t =>
        rw [Json.text.injEq]
        exact ⟨Except.ok.inj, congrArg Except.ok⟩
    | _ => exact iff_of_false nofun nofun
  exact listOf_eq_ok_iff (listOf_eq_ok_iff hstring) v cells

/-- In an object with different names a field is found under its name. -/
theorem field?_eq_some_iff (hnames : (entries.map Prod.fst).Nodup) {name : String} {v : Json} :
    Json.field? name entries = some v ↔ (name, v) ∈ entries := by
  rw [Json.field?, Option.map_eq_some_iff]
  have hfound : ∀ p, entries.reverse.find? (·.1 == name) = some p → p.1 = name ∧ p ∈ entries := by
    intro p hfind
    have hname := List.find?_some hfind
    exact ⟨beq_iff_eq.mp hname, List.mem_reverse.mp (List.mem_of_find?_eq_some hfind)⟩
  constructor
  · rintro ⟨p, hfind, rfl⟩
    obtain ⟨rfl, hmem⟩ := hfound p hfind
    exact hmem
  · intro hmem
    cases hfind : entries.reverse.find? (·.1 == name) with
    | none =>
        have hnone := List.find?_eq_none.mp hfind (name, v) (List.mem_reverse.mpr hmem)
        exact absurd (beq_self_eq_true name) hnone
    | some p =>
        obtain ⟨hname, hp⟩ := hfound p hfind
        have heq : p = (name, v) := List.inj_on_of_nodup_map hnames hp hmem hname
        exact ⟨p, rfl, congrArg Prod.snd heq⟩

theorem readClusters_eq_ok_iff (hnames : (entries.map Prod.fst).Nodup)
    (clusters : Option (List (List String))) :
    readClusters (.object entries) = .ok clusters ↔
      match clusters with
      | some cells => ("clusters", .ofCells cells) ∈ entries
      | none => ∀ v, ("clusters", v) ∉ entries := by
  simp only [← field?_eq_some_iff hnames]
  unfold readClusters
  dsimp only
  cases hfield : Json.field? "clusters" entries with
  | none => cases clusters <;> simp
  | some v =>
      cases clusters with
      | none =>
          refine iff_of_false (fun h => ?_) fun h => h v rfl
          obtain ⟨cells, -, hcells⟩ := map_eq_ok h
          cases hcells
      | some cells =>
          change Except.map some _ = _ ↔ some v = some _
          rw [Option.some.injEq, ← cells_eq_ok_iff]
          constructor
          · intro h
            obtain ⟨cells', hcells, heq⟩ := map_eq_ok h
            rw [hcells, Option.some.inj heq]
          · intro h
            rw [h]
            rfl

/-! ## The result -/

/-- Options with the clusters read, if there are any. -/
def clustered (o : Options Float) (clusters : Option (List (List String))) : Options Float :=
  match clusters with
  | some cells => { o with clustering := .cells cells }
  | none => o

theorem get_clustered (o : Options Float) (clusters : Option (List (List String))) :
    ∀ s ∈ slots, s.get (o.clustered clusters) = s.get o := by
  cases clusters with
  | none => exact fun _ _ => rfl
  | some cells => simp [slots, clustered]

theorem ofJson_eq_ok_iff {v : Json} : ofJson v = .ok o ↔ ∃ read clusters,
    readFields v = .ok read ∧ readClusters v = .ok clusters ∧ read.clustered clusters = o ∧
      o.refresh ≠ 0 := by
  have heq : ofJson v = readFields v >>= fun read => readClusters v >>= fun clusters =>
      if (read.clustered clusters).refresh = 0 then .error .zeroRefresh
      else .ok (read.clustered clusters) := rfl
  rw [heq]
  constructor
  · intro h
    obtain ⟨read, hread, h⟩ := Drawing.bind_eq_ok h
    obtain ⟨clusters, hclusters, h⟩ := Drawing.bind_eq_ok h
    split at h
    next => cases h
    next hrefresh =>
      cases h
      exact ⟨read, clusters, hread, hclusters, rfl, hrefresh⟩
  · rintro ⟨read, clusters, hread, hclusters, rfl, hrefresh⟩
    rw [hread, hclusters]
    exact if_neg hrefresh

/-! ## The grammar -/

/-- The value that a field is given, under one of its names. -/
def Slot.Given (s : Slot) (entries : List (String × Json)) (v : Json) : Prop :=
  ∃ name ∈ s.names, (name, v) ∈ entries

/-- The fields that options name: those of an object, or as many as an array has entries. -/
def entriesOf : Json → List (String × Json)
  | .object entries => entries
  | .list items => (slots.map (·.name)).zip items
  | _ => []

/-- Fields with values that can be accepted. -/
structure Acceptable (entries : List (String × Json)) : Prop where
  given : ∀ s ∈ slots, ∀ v, s.Given entries v → ∃ a, Reads s.kind v a
  /-- The number of iterations is not given under both of its names. -/
  single : ∀ v w, ("numIter", v) ∈ entries → ("maxIterations", w) ∉ entries
  clusters : ∀ v, ("clusters", v) ∈ entries → ∃ cells, v = .ofCells cells
  refresh_ne_zero : ("refresh", .integer 0) ∉ entries

/-- Options as the fields say. -/
structure Follows (entries : List (String × Json)) (o : Options Float) : Prop where
  given : ∀ s ∈ slots, ∀ v, s.Given entries v → Reads s.kind v (s.get o)
  default : ∀ s ∈ slots, (∀ v, ¬s.Given entries v) → s.get o = s.get defaults
  cells : ∀ cells, ("clusters", .ofCells cells) ∈ entries → o.clustering = .cells cells
  none : (∀ v, ("clusters", v) ∉ entries) → o.clustering = .none

/-- One field only has two names. -/
theorem names_cases : ∀ s ∈ slots, ∀ a ∈ s.names, ∀ b ∈ s.names, a ≠ b →
    a = "numIter" ∧ b = "maxIterations" ∨ a = "maxIterations" ∧ b = "numIter" := by
  simp [slots, Slot.names]

theorem exists_two_names : ∃ s ∈ slots, "numIter" ∈ s.names ∧ "maxIterations" ∈ s.names := by
  simp [slots, Slot.names]

theorem pairwise_apart_iff (hnames : (entries.map Prod.fst).Nodup) : entries.Pairwise Apart ↔
    ∀ v w, ("numIter", v) ∈ entries → ("maxIterations", w) ∉ entries := by
  constructor
  · intro hapart v w hv hw
    obtain ⟨s, hs, hname, hother⟩ := exists_two_names
    have hsymm : Std.Symm Apart := ⟨fun _ _ h s hs hq hp => h s hs hp hq⟩
    have hne : ("numIter", v) ≠ ("maxIterations", w) := by simp
    exact hapart.forall hv hw hne s hs hname hother
  · intro hsingle
    have hdistinct : entries.Pairwise fun p q => p.1 ≠ q.1 := List.pairwise_map.mp hnames
    refine hdistinct.imp_of_mem fun {p q} hp hq hne s hs hpname hqname => ?_
    rcases names_cases s hs p.1 hpname q.1 hqname hne with ⟨hpn, hqn⟩ | ⟨hpn, hqn⟩
    · exact hsingle p.2 q.2 (hpn ▸ hp) (hqn ▸ hq)
    · exact hsingle q.2 p.2 (hqn ▸ hq) (hpn ▸ hp)

/-! ## Objects as a whole -/

/-- The field that may not be 0. -/
def refreshSlot : Slot := ⟨"refresh", [], .word, fun o => .word o.refresh⟩

theorem refreshSlot_mem : refreshSlot ∈ slots := by
  simp [slots, refreshSlot]

theorem given_refreshSlot_iff {v : Json} :
    refreshSlot.Given entries v ↔ ("refresh", v) ∈ entries := by
  simp [Slot.Given, Slot.names, refreshSlot]

section Object

variable (hproper : (Json.object entries).Proper)
include hproper

theorem names_nodup_of_proper : (entries.map Prod.fst).Nodup := by
  cases hproper with
  | object hnames => exact hnames

theorem proper_of_mem : ∀ p ∈ entries, p.2.Proper := by
  cases hproper with
  | object _ hfields => exact hfields

/-- The fields of options that are read have the values given, or the defaults. -/
theorem follows_of_ofJson (h : ofJson (.object entries) = .ok o) : Follows entries o := by
  obtain ⟨read, clusters, hread, hclusters, rfl, -⟩ := ofJson_eq_ok_iff.mp h
  have hfrom := readFrom_of_readObject (proper_of_mem hproper) hread
  have hcells := readClusters_eq_ok_iff (names_nodup_of_proper hproper)
  constructor
  case given =>
    rintro s hs v ⟨name, hname, hmem⟩
    rw [get_clustered _ _ s hs]
    exact (hfrom.given s hs _ hmem hname).2
  case default =>
    intro s hs hnone
    rw [get_clustered _ _ s hs]
    exact hfrom.kept s hs fun p hp hname => hnone p.2 ⟨p.1, hname, hp⟩
  case cells =>
    intro cells hmem
    have hread := (hcells (some cells)).mpr hmem
    obtain rfl := Except.ok.inj (hread.symm.trans hclusters)
    rfl
  case none =>
    intro hnone
    have hread := (hcells none).mpr hnone
    obtain rfl := Except.ok.inj (hread.symm.trans hclusters)
    exact hfrom.clustering_eq

theorem exists_ofJson_iff : (∃ o, ofJson (.object entries) = .ok o) ↔ Acceptable entries := by
  have hnames := names_nodup_of_proper hproper
  constructor
  · rintro ⟨o, h⟩
    have hfollows := follows_of_ofJson hproper h
    obtain ⟨read, clusters, hread, hclusters, rfl, hrefresh⟩ := ofJson_eq_ok_iff.mp h
    have hfrom := readFrom_of_readObject (proper_of_mem hproper) hread
    constructor
    case given => exact fun s hs v hv => ⟨_, hfollows.given s hs v hv⟩
    case single => exact (pairwise_apart_iff hnames).mp hfrom.apart
    case clusters =>
      intro v hv
      have hread := (readClusters_eq_ok_iff hnames clusters).mp hclusters
      cases clusters with
      | none => exact absurd hv (hread v)
      | some cells =>
          have hsome := (field?_eq_some_iff hnames).mpr hv
          rw [(field?_eq_some_iff hnames).mpr hread] at hsome
          exact ⟨cells, (Option.some.inj hsome).symm⟩
    case refresh_ne_zero =>
      intro hzero
      have hreads := hfollows.given refreshSlot refreshSlot_mem _ (given_refreshSlot_iff.mpr hzero)
      exact hrefresh (Value.word.inj (hreads.unique (.word (Nat.two_pow_pos 64))))
  · intro h
    have hapart := (pairwise_apart_iff hnames).mpr h.single
    obtain ⟨read, hread⟩ : ∃ read, readFields (.object entries) = .ok read :=
      exists_readObject (fun s hs p hp hname =>
        ⟨List.not_mem_nil, h.given s hs p.2 ⟨p.1, hname, hp⟩⟩) hapart
    obtain ⟨clusters, hclusters⟩ : ∃ clusters, readClusters (.object entries) = .ok clusters := by
      by_cases hgiven : ∃ v, ("clusters", v) ∈ entries
      · obtain ⟨v, hv⟩ := hgiven
        obtain ⟨cells, rfl⟩ := h.clusters v hv
        exact ⟨some cells, (readClusters_eq_ok_iff hnames (some cells)).mpr hv⟩
      · exact ⟨none, (readClusters_eq_ok_iff hnames none).mpr (not_exists.mp hgiven)⟩
    refine ⟨_, ofJson_eq_ok_iff.mpr ⟨read, clusters, hread, hclusters, rfl, fun hzero => ?_⟩⟩
    have hfrom := readFrom_of_readObject (proper_of_mem hproper) hread
    have hvalue : refreshSlot.get read = .word 0 :=
      (get_clustered read clusters _ refreshSlot_mem).symm.trans (congrArg Value.word hzero)
    by_cases hgiven : ∃ v, ("refresh", v) ∈ entries
    · obtain ⟨v, hv⟩ := hgiven
      have hreads := (hfrom.given _ refreshSlot_mem _ hv List.mem_cons_self).2
      rw [hvalue] at hreads
      cases hreads with
      | word => exact h.refresh_ne_zero hv
    · have hkept := hfrom.kept _ refreshSlot_mem fun p hp hname =>
        hgiven ⟨p.2, given_refreshSlot_iff.mp ⟨p.1, hname, hp⟩⟩
      rw [hvalue] at hkept
      cases hkept

end Object

/-! ## What plays no part -/

/-- What the fields say is all there is to options. -/
theorem Follows.unique (h : Follows entries o) (h' : Follows entries o')
    (hacceptable : Acceptable entries) : o = o' := by
  refine eq_of_slots (fun s hs => ?_) ?_
  · by_cases hgiven : ∃ v, s.Given entries v
    · obtain ⟨v, hv⟩ := hgiven
      exact (h.given s hs v hv).unique (h'.given s hs v hv)
    · rw [h.default s hs (not_exists.mp hgiven), h'.default s hs (not_exists.mp hgiven)]
  · by_cases hgiven : ∃ v, ("clusters", v) ∈ entries
    · obtain ⟨v, hv⟩ := hgiven
      obtain ⟨cells, rfl⟩ := hacceptable.clusters v hv
      rw [h.cells cells hv, h'.cells cells hv]
    · rw [h.none (not_exists.mp hgiven), h'.none (not_exists.mp hgiven)]

section Order

variable (hperm : entries.Perm entries')
include hperm

theorem Slot.given_perm (s : Slot) (v : Json) : s.Given entries v ↔ s.Given entries' v := by
  simp only [Slot.Given, hperm.mem_iff]

theorem Acceptable.perm (h : Acceptable entries) : Acceptable entries' where
  given s hs v hv := h.given s hs v ((s.given_perm hperm v).mpr hv)
  single v w hv hw := h.single v w (hperm.mem_iff.mpr hv) (hperm.mem_iff.mpr hw)
  clusters v hv := h.clusters v (hperm.mem_iff.mpr hv)
  refresh_ne_zero hzero := h.refresh_ne_zero (hperm.mem_iff.mpr hzero)

theorem Follows.perm (h : Follows entries o) : Follows entries' o where
  given s hs v hv := h.given s hs v ((s.given_perm hperm v).mpr hv)
  default s hs hnone := h.default s hs fun v hv => hnone v ((s.given_perm hperm v).mp hv)
  cells cells hmem := h.cells cells (hperm.mem_iff.mpr hmem)
  none hnone := h.none fun v hv => hnone v (hperm.mem_iff.mp hv)

theorem proper_perm (hproper : (Json.object entries).Proper) : (Json.object entries').Proper :=
  .object ((hperm.map Prod.fst).nodup_iff.mp (names_nodup_of_proper hproper)) fun p hp =>
    proper_of_mem hproper p (hperm.mem_iff.mpr hp)

/-- The order of the fields decides on nothing but which fault is found first. -/
theorem toOption_ofJson_perm (hproper : (Json.object entries).Proper) :
    (ofJson (.object entries')).toOption = (ofJson (.object entries)).toOption := by
  have hproper' := proper_perm hperm hproper
  cases h : ofJson (.object entries) with
  | ok o =>
      have hacceptable := (exists_ofJson_iff hproper).mp ⟨o, h⟩
      obtain ⟨o', h'⟩ := (exists_ofJson_iff hproper').mpr (hacceptable.perm hperm)
      have hfollows := (follows_of_ofJson hproper h).perm hperm
      rw [h', (follows_of_ofJson hproper' h').unique hfollows (hacceptable.perm hperm)]
  | error e =>
      cases h' : ofJson (.object entries') with
      | error e' => rfl
      | ok o' =>
          have hacceptable := (exists_ofJson_iff hproper').mp ⟨o', h'⟩
          obtain ⟨o, hok⟩ := (exists_ofJson_iff hproper).mpr (hacceptable.perm hperm.symm)
          rw [h] at hok
          cases hok

end Order

/-- Whether options have a field of a name. -/
def known (name : String) : Bool := name == "clusters" || slots.any fun s => s.names.contains name

theorem readObject_filter (seen : List String) (entries : List (String × Json))
    (o : Options Float) :
    readObject seen (entries.filter fun p => known p.1) o = readObject seen entries o := by
  induction entries generalizing seen o with
  | nil => rfl
  | cons entry rest ih =>
      obtain ⟨name, v⟩ := entry
      rw [List.filter_cons]
      split
      next =>
        rw [readObject, readObject]
        simp only [ih]
      next hknown =>
        have hnone : fields.find? (·.answersTo name) = none := by
          rcases find?_answersTo serves_fields name with ⟨f, s, -, hs, -, hname⟩ | ⟨hfind, -⟩
          · refine absurd ?_ hknown
            rw [known, Bool.or_eq_true, List.any_eq_true]
            exact Or.inr ⟨s, hs, List.contains_iff_mem.mpr hname⟩
          · exact hfind
        rw [ih, readObject, hnone]

theorem field?_filter (entries : List (String × Json)) :
    Json.field? "clusters" (entries.filter fun p => known p.1) = Json.field? "clusters" entries := by
  rw [Json.field?, ← List.filter_reverse, List.find?_filter]
  refine congrArg (fun p => (entries.reverse.find? p).map Prod.snd) (funext fun p => ?_)
  by_cases hname : p.1 = "clusters" <;> simp [hname, known]

/-- Unknown fields have no effect, not even on what is found wrong. -/
theorem ofJson_filter (entries : List (String × Json)) :
    ofJson (.object (entries.filter fun p => known p.1)) = ofJson (.object entries) := by
  have hfields : readFields (.object (entries.filter fun p => known p.1)) =
      readFields (.object entries) := readObject_filter [] entries defaults
  have hclusters : readClusters (.object (entries.filter fun p => known p.1)) =
      readClusters (.object entries) := by
    rw [readClusters, field?_filter, readClusters]
  rw [ofJson, hfields, hclusters, ofJson]

/-! ## Arrays -/

section Array

variable (items : List Json)

theorem slot_names_nodup : (slots.map (·.name)).Nodup := by
  simp [slots]

theorem nodup_entriesOf_list : ((entriesOf (.list items)).map Prod.fst).Nodup := by
  rw [entriesOf, List.zip_eq_zip_take_min, List.map_fst_zip (by simp)]
  exact slot_names_nodup.sublist (List.take_sublist _ _)

theorem clusters_notMem_entriesOf_list (v : Json) :
    ("clusters", v) ∉ entriesOf (.list items) := by
  intro hmem
  have hname := (List.of_mem_zip hmem).1
  simp [slots] at hname

theorem proper_entriesOf_list (hproper : (Json.list items).Proper) :
    (Json.object (entriesOf (.list items))).Proper := by
  cases hproper with
  | list hitems =>
      exact .object (nodup_entriesOf_list items) fun p hp => hitems p.2 (List.of_mem_zip hp).2

/-- An array that is not too long is read as the object that names its entries. -/
theorem ofJson_list (hlength : items.length ≤ slots.length) :
    ofJson (.list items) = ofJson (.object (entriesOf (.list items))) := by
  have hread : readEntries fields items defaults =
      readObject [] (entriesOf (.list items)) defaults :=
    readEntries_eq_readObject (fun f hf => hf) (names_fields ▸ slot_names_nodup) fun _ _ =>
      List.not_mem_nil
  have hfields : readFields (.list items) = readFields (.object (entriesOf (.list items))) := by
    have hnot : ¬fields.length < items.length := Nat.not_lt.mpr hlength
    simp only [readFields, if_neg hnot, ← hread]
    cases readEntries fields items defaults <;> rfl
  have hclusters : readClusters (.object (entriesOf (.list items))) = .ok none :=
    (readClusters_eq_ok_iff (nodup_entriesOf_list items) none).mpr
      (clusters_notMem_entriesOf_list items)
  have hnone : readClusters (.list items) = .ok none := rfl
  rw [ofJson, hfields, hnone, ← hclusters, ofJson]

/-- A longer one is not read at all. -/
theorem length_le_of_ofJson (h : ofJson (.list items) = .ok o) : items.length ≤ slots.length := by
  obtain ⟨read, -, hread, -⟩ := ofJson_eq_ok_iff.mp h
  obtain ⟨first, -, hfirst⟩ := Drawing.bind_eq_ok hread
  split at hfirst
  next => cases hfirst
  next hlength => exact Nat.not_lt.mp hlength

end Array

/-! ## All of it -/

/-- What reading options from JSON comes to. -/
structure Decodes (v : Json) : Prop where
  /-- Accepted are objects, and arrays that are not too long, with acceptable fields. -/
  isOk_iff : (∃ o, ofJson v = .ok o) ↔
    ((∃ entries, v = .object entries) ∨ ∃ items, v = .list items ∧ items.length ≤ 24) ∧
      Acceptable (entriesOf v)
  follows : ∀ o, ofJson v = .ok o → Follows (entriesOf v) o
  unknown : ∀ entries, v = .object entries →
    ofJson (.object (entries.filter fun p => known p.1)) = ofJson v
  order : ∀ entries entries', v = .object entries → entries.Perm entries' →
    (ofJson (.object entries')).toOption = (ofJson v).toOption
  array : ∀ items, v = .list items → items.length ≤ 24 → ofJson v = ofJson (.object (entriesOf v))
  /-- Arrays name no clusters. -/
  array_none : ∀ items o, v = .list items → ofJson v = .ok o → o.clustering = .none

theorem decodes {v : Json} (hv : v.Proper) : Decodes v := by
  have hobject : ∀ {entries}, v = .object entries → (Json.object entries).Proper := fun h => h ▸ hv
  have hlist : ∀ {items}, v = .list items → ∀ {o}, ofJson (.list items) = .ok o →
      ofJson (.object (entriesOf v)) = .ok o := by
    rintro items rfl o h
    rw [← ofJson_list items (length_le_of_ofJson items h), h]
  have hfollows : ∀ o, ofJson v = .ok o → Follows (entriesOf v) o := by
    intro o h
    cases v with
    | object entries => exact follows_of_ofJson (hobject rfl) h
    | list items => exact follows_of_ofJson (proper_entriesOf_list items hv) (hlist rfl h)
    | _ => cases h
  constructor
  case isOk_iff =>
    cases v with
    | object entries =>
        rw [exists_ofJson_iff (hobject rfl)]
        exact (and_iff_right (Or.inl ⟨entries, rfl⟩)).symm
    | list items =>
        constructor
        · rintro ⟨o, h⟩
          have hacceptable := (exists_ofJson_iff (proper_entriesOf_list items hv)).mp ⟨o, hlist rfl h⟩
          exact ⟨Or.inr ⟨items, rfl, length_le_of_ofJson items h⟩, hacceptable⟩
        · rintro ⟨⟨_, ⟨⟩⟩ | ⟨_, ⟨⟩, hlength⟩, hacceptable⟩
          rw [ofJson_list items hlength]
          exact (exists_ofJson_iff (proper_entriesOf_list items hv)).mpr hacceptable
    | _ =>
        refine iff_of_false ?_ ?_
        · rintro ⟨_, ⟨⟩⟩
        · rintro ⟨⟨_, ⟨⟩⟩ | ⟨_, ⟨⟩, -⟩, -⟩
  case follows => exact hfollows
  case unknown =>
    rintro entries rfl
    exact ofJson_filter entries
  case order =>
    rintro entries entries' rfl hperm
    exact toOption_ofJson_perm hperm hv
  case array =>
    rintro items rfl hlength
    exact ofJson_list items hlength
  case array_none =>
    rintro items o rfl h
    exact (hfollows o h).none (clusters_notMem_entriesOf_list items)

/-- Some fields, one of them under its other name and one that is unknown. -/
def sample : Json :=
  .object [("quality", .text "proof"), ("maxIterations", .integer 400), ("label", .null),
    ("clusters", .ofCells [["a", "b"], ["c"]])]

theorem proper_sample : sample.Proper := by
  refine .object (by simp) ?_
  simp only [List.forall_mem_cons, List.not_mem_nil, false_imp_iff, implies_true, and_true]
  refine ⟨.text _, .integer (by decide) (by decide), .null, .list ?_⟩
  simp [Json.Proper.text, Json.Proper.list]

theorem decodes_sample : sample.Proper ∧ Decodes sample ∧
    ∃ o, ofJson sample = .ok o ∧ o.quality = .proof ∧ o.iterations = 400 ∧
      o.clustering = .cells [["a", "b"], ["c"]] := by
  refine ⟨proper_sample, decodes proper_sample, _, rfl, rfl, rfl, rfl⟩

end RingLayout.Options
