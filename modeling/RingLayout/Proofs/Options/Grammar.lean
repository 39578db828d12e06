import Mathlib.Algebra.Ring.Int.Defs
import Mathlib.Algebra.Ring.Nat
import RingLayout.Options.Decode
import RingLayout.Proofs.Clusters

/-! # The grammar of JSON options

Which JSON values a field accepts and what they stand for, told without a word on how they are
read; and that the readers of the fields accept just these values, store what they stand for, and
touch no other field.
-/

namespace RingLayout

/-! ## JSON values -/

namespace Json

/-- Integers fit in 64 bits, with a sign or without, and the fields of an object have different
names. -/
inductive Proper : Json → Prop
  | null : Proper .null
  | bool (b : Bool) : Proper (.bool b)
  | integer {n : Int} (hlow : -2 ^ 63 ≤ n) (hhigh : n < 2 ^ 64) : Proper (.integer n)
  | real (x : Float) : Proper (.real x)
  | text (s : String) : Proper (.text s)
  | list {items : List Json} (hitems : ∀ v ∈ items, Proper v) : Proper (.list items)
  | object {fields : List (String × Json)} (hnames : (fields.map Prod.fst).Nodup)
      (hfields : ∀ p ∈ fields, Proper p.2) : Proper (.object fields)

/-- A name on its own, or as the only field of an object, with null in it. -/
inductive Denotes : Json → String → Prop
  | text (name : String) : Denotes (.text name) name
  | object (name : String) : Denotes (.object [(name, .null)]) name

/-- Arrays of strings in an array. -/
def ofCells (cells : List (List String)) : Json := .list (cells.map fun cell => .list (cell.map .text))

theorem Denotes.unique {v : Json} {a b : String} (ha : v.Denotes a) (hb : v.Denotes b) : a = b := by
  cases ha <;> cases hb <;> rfl

end Json

def Quality.name : Quality → String
  | .draft => "draft"
  | .standard => "default"
  | .proof => "proof"

theorem Quality.name_injective : Function.Injective Quality.name := by
  intro a b h
  cases a <;> cases b <;> first | rfl | simp [name] at h

def Sampling.name : Sampling → String
  | .random => "random"
  | .greedy => "greedy"

theorem Sampling.name_injective : Function.Injective Sampling.name := by
  intro a b h
  cases a <;> cases b <;> first | rfl | simp [name] at h

namespace Options

/-! ## Fields -/

/-- What the value of a field may be. -/
inductive Kind where
  | word
  | number
  | flag
  | quality
  | sampling
  | budget

/-- The value of a field. -/
inductive Value where
  | word (n : Nat)
  | number (x : Float)
  | flag (b : Bool)
  | quality (q : Quality)
  | sampling (s : Sampling)
  | budget (n : Option Nat)

/-- The JSON that a kind of field accepts, with the value that it stands for. -/
inductive Reads : Kind → Json → Value → Prop
  | word {n : Nat} (h : n < 2 ^ 64) : Reads .word (.integer n) (.word n)
  | integer (n : Int) : Reads .number (.integer n) (.number (.ofInt n))
  | real (x : Float) : Reads .number (.real x) (.number x)
  | flag (b : Bool) : Reads .flag (.bool b) (.flag b)
  | quality {v : Json} (q : Quality) (h : v.Denotes q.name) : Reads .quality v (.quality q)
  | sampling {v : Json} (s : Sampling) (h : v.Denotes s.name) : Reads .sampling v (.sampling s)
  | unlimited : Reads .budget .null (.budget none)
  | budget {n : Nat} (h : n < 2 ^ 64) : Reads .budget (.integer n) (.budget (some n))

theorem Reads.unique {k : Kind} {v : Json} {a b : Value} (ha : Reads k v a) (hb : Reads k v b) :
    a = b := by
  cases ha with
  | quality q h =>
      cases hb with
      | quality q' h' => rw [Quality.name_injective (h.unique h')]
  | sampling s h =>
      cases hb with
      | sampling s' h' => rw [Sampling.name_injective (h.unique h')]
  | _ =>
      cases hb
      rfl

/-- A field of the options as a caller knows it. -/
structure Slot where
  name : String
  aliases : List String
  kind : Kind
  get : Options Float → Value

def Slot.names (s : Slot) : List String := s.name :: s.aliases

/-- The fields in the order of their declaration. Clusters are none of them. -/
def slots : List Slot :=
  [⟨"randomSeed", [], .word, fun o => .word o.seed.toNat⟩,
   ⟨"randomize", [], .flag, fun o => .flag o.randomize⟩,
   ⟨"quality", [], .quality, fun o => .quality o.quality⟩,
   ⟨"nodeSeparation", [], .number, fun o => .number o.nodeSeparation⟩,
   ⟨"idealEdgeLength", [], .number, fun o => .number o.idealEdgeLength⟩,
   ⟨"idealInterClusterEdgeLengthCoefficient", [], .number,
     fun o => .number o.interClusterCoefficient⟩,
   ⟨"nodeRepulsion", [], .number, fun o => .number o.nodeRepulsion⟩,
   ⟨"gravity", [], .number, fun o => .number o.gravity⟩,
   ⟨"gravityRange", [], .number, fun o => .number o.gravityRange⟩,
   ⟨"springCoeff", [], .number, fun o => .number o.springCoefficient⟩,
   ⟨"numIter", ["maxIterations"], .word, fun o => .word o.iterations⟩,
   ⟨"refresh", [], .word, fun o => .word o.refresh⟩,
   ⟨"samplingType", [], .sampling, fun o => .sampling o.sampling⟩,
   ⟨"sampleSize", [], .word, fun o => .word o.sampleSize⟩,
   ⟨"piTol", [], .number, fun o => .number o.powerTolerance⟩,
   ⟨"allowNodesInsideCircle", [], .flag, fun o => .flag o.allowInside⟩,
   ⟨"maxRatioOfNodesInsideCircle", [], .number, fun o => .number o.maxInsideRatio⟩,
   ⟨"packComponents", [], .flag, fun o => .flag o.packComponents⟩,
   ⟨"tile", [], .flag, fun o => .flag o.tile⟩,
   ⟨"tilingPaddingVertical", [], .number, fun o => .number o.tilingPaddingVertical⟩,
   ⟨"tilingPaddingHorizontal", [], .number, fun o => .number o.tilingPaddingHorizontal⟩,
   ⟨"animate", [], .flag, fun o => .flag o.animate⟩,
   ⟨"animationDuration", [], .word, fun o => .word o.animationDuration⟩,
   ⟨"timeBudgetMs", [], .budget, fun o => .budget o.timeBudget⟩]

/-- Options with the same fields and the same clustering are the same. -/
theorem eq_of_slots {o o' : Options Float} (hslots : ∀ s ∈ slots, s.get o = s.get o')
    (hclustering : o.clustering = o'.clustering) : o = o' := by
  cases o
  cases o'
  simp only [slots, List.forall_mem_cons, Value.word.injEq, Value.flag.injEq, Value.quality.injEq,
    Value.number.injEq, Value.sampling.injEq, Value.budget.injEq, UInt64.toNat_inj] at hslots
  simp_all

/-! ## Readers -/

theorem map_eq_ok {ε α β : Type} {x : Except ε α} {f : α → β} {b : β} (h : x.map f = .ok b) :
    ∃ a, x = .ok a ∧ f a = b := by
  cases x with
  | error e => cases h
  | ok a => exact ⟨a, rfl, Except.ok.inj h⟩

/-- A reader accepts what a kind of field accepts, and nothing else of proper JSON. -/
structure ReadBy {α : Type} (kind : Kind) (read : Json → Except OptionError α) (value : α → Value) :
    Prop where
  reads : ∀ {v a}, v.Proper → read v = .ok a → Reads kind v (value a)
  accepts : ∀ {v b}, Reads kind v b → ∃ a, read v = .ok a

theorem natural_eq_ok {expected : Expected} {v : Json} {n : Nat} (hv : v.Proper)
    (h : v.natural expected = .ok n) : n < 2 ^ 64 ∧ v = .integer n := by
  cases hv with
  | @integer m hlow hhigh =>
      rw [Json.natural] at h
      split at h
      next hm =>
        cases h
        refine ⟨by omega, ?_⟩
        rw [Int.toNat_of_nonneg hm]
      next => cases h
  | _ => cases h

theorem natural_integer (expected : Expected) (n : Nat) :
    (Json.integer n).natural expected = .ok n := by
  rw [Json.natural, if_pos (Int.natCast_nonneg n), Int.toNat_natCast]

theorem readBy_natural (expected : Expected) : ReadBy .word (Json.natural expected) .word where
  reads hv h := by
    obtain ⟨hn, rfl⟩ := natural_eq_ok hv h
    exact .word hn
  accepts h := by
    cases h with
    | word => exact ⟨_, natural_integer expected _⟩

theorem readBy_number : ReadBy .number Json.number .number where
  reads hv h := by
    cases hv with
    | integer =>
        cases h
        exact .integer _
    | real =>
        cases h
        exact .real _
    | _ => cases h
  accepts h := by
    cases h with
    | integer n => exact ⟨_, rfl⟩
    | real x => exact ⟨_, rfl⟩

theorem readBy_boolean : ReadBy .flag Json.boolean .flag where
  reads hv h := by
    cases hv with
    | bool =>
        cases h
        exact .flag _
    | _ => cases h
  accepts h := by
    cases h with
    | flag b => exact ⟨_, rfl⟩

theorem readBy_limit : ReadBy .budget limit .budget where
  reads {v a} hv h := by
    have hcases : v = .null ∧ a = none ∨ ∃ n, v.natural .word = .ok n ∧ some n = a := by
      unfold limit at h
      split at h
      next =>
        cases h
        exact Or.inl ⟨rfl, rfl⟩
      next => exact Or.inr (map_eq_ok h)
    rcases hcases with ⟨rfl, rfl⟩ | ⟨n, hn, rfl⟩
    · exact .unlimited
    · obtain ⟨hlt, rfl⟩ := natural_eq_ok hv hn
      exact .budget hlt
  accepts h := by
    cases h with
    | unlimited => exact ⟨none, rfl⟩
    | @budget n _ => exact ⟨some n, congrArg (Except.map some) (natural_integer .word n)⟩

section Variants

variable {α : Type} {variants : List (String × α)} {name : α → String}
  (hname : ∀ p, p ∈ variants ↔ p.1 = name p.2)
include hname

theorem variantNamed_eq_ok_iff (hinj : Function.Injective name) {n : String} {a : α} :
    Json.variantNamed variants n = .ok a ↔ n = name a := by
  unfold Json.variantNamed
  cases hfind : variants.find? (·.1 == n) with
  | some p =>
      have hp : p.1 = n := beq_iff_eq.mp (List.find?_some hfind :)
      have hmem := (hname p).mp (List.mem_of_find?_eq_some hfind)
      rw [← hp, hmem, hinj.eq_iff]
      exact ⟨Except.ok.inj, congrArg Except.ok⟩
  | none =>
      refine iff_of_false nofun ?_
      rintro rfl
      have hnone := List.find?_eq_none.mp hfind (name a, a) ((hname _).mpr rfl)
      exact hnone (beq_self_eq_true _)

theorem variant_eq_ok_iff (hinj : Function.Injective name) {v : Json} {a : α} :
    v.variant variants = .ok a ↔ v.Denotes (name a) := by
  have hnamed : ∀ {n b}, Json.variantNamed variants n = .ok b ↔ n = name b :=
    variantNamed_eq_ok_iff hname hinj
  constructor
  · intro h
    unfold Json.variant at h
    split at h
    next n =>
      rw [hnamed.mp h]
      exact .text _
    next n content =>
      obtain ⟨b, hb, h⟩ := Drawing.bind_eq_ok h
      rw [hnamed.mp hb]
      split at h
      next =>
        cases h
        exact .object _
      next => cases h
    next => cases h
    next => cases h
  · intro h
    cases h with
    | text => exact hnamed.mpr rfl
    | object =>
        have hok : Json.variantNamed variants (name a) = .ok a := hnamed.mpr rfl
        simp only [Json.variant, hok]
        rfl

end Variants

theorem mem_qualities_iff (p : String × Quality) : p ∈ qualities ↔ p.1 = p.2.name := by
  obtain ⟨n, q⟩ := p
  cases q <;> simp [qualities, Quality.name]

theorem mem_samplings_iff (p : String × Sampling) : p ∈ samplings ↔ p.1 = p.2.name := by
  obtain ⟨n, s⟩ := p
  cases s <;> simp [samplings, Sampling.name]

theorem readBy_qualities : ReadBy .quality (Json.variant qualities) .quality where
  reads _ h := .quality _ ((variant_eq_ok_iff mem_qualities_iff Quality.name_injective).mp h)
  accepts h := by
    cases h with
    | quality q h => exact ⟨q, (variant_eq_ok_iff mem_qualities_iff Quality.name_injective).mpr h⟩

theorem readBy_samplings : ReadBy .sampling (Json.variant samplings) .sampling where
  reads _ h := .sampling _ ((variant_eq_ok_iff mem_samplings_iff Sampling.name_injective).mp h)
  accepts h := by
    cases h with
    | sampling s h =>
        exact ⟨s, (variant_eq_ok_iff mem_samplings_iff Sampling.name_injective).mpr h⟩

/-! ## What fields change -/

/-- Of the fields, and of the clustering, only the one of a name may differ. -/
structure SameBut (name : String) (o o' : Options Float) : Prop where
  get_eq : ∀ s ∈ slots, s.name ≠ name → s.get o' = s.get o
  clustering_eq : o'.clustering = o.clustering

/-- A field of the reader is a field as a caller knows it. -/
structure Serves (f : Field) (s : Slot) : Prop where
  name_eq : f.name = s.name
  aliases_eq : f.aliases = s.aliases
  reads : ∀ {v o o'}, v.Proper → f.set v o = .ok o' → Reads s.kind v (s.get o')
  same : ∀ {v o o'}, f.set v o = .ok o' → SameBut s.name o o'
  accepts : ∀ {v a}, Reads s.kind v a → ∀ o, ∃ o', f.set v o = .ok o'

theorem serves_of_read {α : Type} {f : Field} {s : Slot} {read : Json → Except OptionError α}
    {store : Options Float → α → Options Float} {value : α → Value}
    (hset : ∀ v o, f.set v o = (read v).map (store o)) (hname : f.name = s.name)
    (haliases : f.aliases = s.aliases) (hread : ReadBy s.kind read value)
    (hget : ∀ v o a, Reads s.kind v (value a) → s.get (store o a) = value a)
    (hsame : ∀ o a, SameBut s.name o (store o a)) : Serves f s where
  name_eq := hname
  aliases_eq := haliases
  reads hv h := by
    obtain ⟨a, ha, rfl⟩ := map_eq_ok (hset _ _ ▸ h)
    have hreads := hread.reads hv ha
    rwa [hget _ _ a hreads]
  same h := by
    obtain ⟨a, -, rfl⟩ := map_eq_ok (hset _ _ ▸ h)
    exact hsame _ a
  accepts h o := by
    obtain ⟨a, ha⟩ := hread.accepts h
    exact ⟨store o a, (hset _ _).trans (congrArg (Except.map (store o)) ha)⟩

/-- The readers of the fields stand in the order of the fields. -/
theorem serves_fields : List.Forall₂ Serves fields slots := by
  unfold fields
  refine
    .cons (serves_of_read (fun _ _ => rfl) rfl rfl (readBy_natural .word) ?seed ?_) <|
    .cons (serves_of_read (fun _ _ => rfl) rfl rfl readBy_boolean (fun _ _ _ _ => rfl) ?_) <|
    .cons (serves_of_read (fun _ _ => rfl) rfl rfl readBy_qualities (fun _ _ _ _ => rfl) ?_) <|
    .cons (serves_of_read (fun _ _ => rfl) rfl rfl readBy_number (fun _ _ _ _ => rfl) ?_) <|
    .cons (serves_of_read (fun _ _ => rfl) rfl rfl readBy_number (fun _ _ _ _ => rfl) ?_) <|
    .cons (serves_of_read (fun _ _ => rfl) rfl rfl readBy_number (fun _ _ _ _ => rfl) ?_) <|
    .cons (serves_of_read (fun _ _ => rfl) rfl rfl readBy_number (fun _ _ _ _ => rfl) ?_) <|
    .cons (serves_of_read (fun _ _ => rfl) rfl rfl readBy_number (fun _ _ _ _ => rfl) ?_) <|
    .cons (serves_of_read (fun _ _ => rfl) rfl rfl readBy_number (fun _ _ _ _ => rfl) ?_) <|
    .cons (serves_of_read (fun _ _ => rfl) rfl rfl readBy_number (fun _ _ _ _ => rfl) ?_) <|
    .cons (serves_of_read (fun _ _ => rfl) rfl rfl (readBy_natural .count) (fun _ _ _ _ => rfl) ?_) <|
    .cons (serves_of_read (fun _ _ => rfl) rfl rfl (readBy_natural .count) (fun _ _ _ _ => rfl) ?_) <|
    .cons (serves_of_read (fun _ _ => rfl) rfl rfl readBy_samplings (fun _ _ _ _ => rfl) ?_) <|
    .cons (serves_of_read (fun _ _ => rfl) rfl rfl (readBy_natural .count) (fun _ _ _ _ => rfl) ?_) <|
    .cons (serves_of_read (fun _ _ => rfl) rfl rfl readBy_number (fun _ _ _ _ => rfl) ?_) <|
    .cons (serves_of_read (fun _ _ => rfl) rfl rfl readBy_boolean (fun _ _ _ _ => rfl) ?_) <|
    .cons (serves_of_read (fun _ _ => rfl) rfl rfl readBy_number (fun _ _ _ _ => rfl) ?_) <|
    .cons (serves_of_read (fun _ _ => rfl) rfl rfl readBy_boolean (fun _ _ _ _ => rfl) ?_) <|
    .cons (serves_of_read (fun _ _ => rfl) rfl rfl readBy_boolean (fun _ _ _ _ => rfl) ?_) <|
    .cons (serves_of_read (fun _ _ => rfl) rfl rfl readBy_number (fun _ _ _ _ => rfl) ?_) <|
    .cons (serves_of_read (fun _ _ => rfl) rfl rfl readBy_number (fun _ _ _ _ => rfl) ?_) <|
    .cons (serves_of_read (fun _ _ => rfl) rfl rfl readBy_boolean (fun _ _ _ _ => rfl) ?_) <|
    .cons (serves_of_read (fun _ _ => rfl) rfl rfl (readBy_natural .word) (fun _ _ _ _ => rfl) ?_) <|
    .cons (serves_of_read (fun _ _ => rfl) rfl rfl readBy_limit (fun _ _ _ _ => rfl) ?_) <|
    .nil
  case seed =>
    intro v o n h
    cases h with
    | word hn => exact congrArg Value.word (UInt64.toNat_ofNat_of_lt hn)
  all_goals exact fun o a => ⟨by simp [slots], rfl⟩

end Options

end RingLayout
