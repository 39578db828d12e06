import RingLayout.Drawing.Exchange
import RingLayout.Drawing.Interior
import RingLayout.Drawing.Packing
import RingLayout.Drawing.Reversal

/-! # Renaming

A drawing carries the names of its nodes and groups along. Nothing that is done to a drawing looks
at them, so that it makes no difference whether they are changed before or after.
-/

namespace RingLayout

variable {K : Type}

namespace Body

def rename (f : String → String) (b : Body K) : Body K :=
  { b with id := b.id.map f, group := b.group.map f }

variable (f : String → String) (b : Body K)

@[simp] theorem box_rename : (b.rename f).box = b.box := rfl

@[simp] theorem role_rename : (b.rename f).role = b.role := rfl

@[simp] theorem seat?_rename : (b.rename f).seat? = b.seat? := rfl

@[simp] theorem isSeated_rename : (b.rename f).isSeated = b.isSeated := rfl

@[simp] theorem isHub_rename : (b.rename f).isHub = b.isHub := rfl

variable [Scalar K]

@[simp] theorem center_rename : (b.rename f).center = b.center := rfl

@[simp] theorem totalForce_rename : (b.rename f).totalForce = b.totalForce := rfl

@[simp] theorem rename_blank : (blank : Body K).rename f = blank := rfl

end Body

namespace Drawing

def rename (f : String → String) (d : Drawing K) : Drawing K :=
  { d with bodies := d.bodies.map (·.rename f), groups := d.groups.map f }

theorem rename_id (d : Drawing K) : d.rename id = d := by
  have hbody : (Body.rename id : Body K → Body K) = id := by
    funext b
    simp [Body.rename]
  simp [rename, hbody]

variable (f : String → String) (d : Drawing K)

@[simp] theorem nodeCount_rename : (d.rename f).nodeCount = d.nodeCount := rfl

@[simp] theorem seated_rename : (d.rename f).seated = d.seated := rfl

@[simp] theorem inside_rename : (d.rename f).inside = d.inside := rfl

@[simp] theorem roots_rename : (d.rename f).roots = d.roots := rfl

@[simp] theorem tiled_rename : (d.rename f).tiled = d.tiled := rfl

@[simp] theorem links_rename : (d.rename f).links = d.links := rfl

@[simp] theorem rings_rename : (d.rename f).rings = d.rings := rfl

@[simp] theorem simulated_rename : (d.rename f).simulated = d.simulated := rfl

@[simp] theorem ringNumbers_rename : (d.rename f).ringNumbers = d.ringNumbers := rfl

@[simp] theorem modifyRing_rename (c : Nat) (g : Ring K → Ring K) :
    (d.rename f).modifyRing c g = (d.modifyRing c g).rename f := rfl

@[simp] theorem observeOrder_rename (c : Nat) :
    (d.rename f).observeOrder c = (d.observeOrder c).rename f := rfl

/-- A loop whose steps leave the names alone. -/
@[simp] theorem foldl_rename {α : Type} {step : Drawing K → α → Drawing K}
    (hstep : ∀ d a, step (d.rename f) a = (step d a).rename f) (l : List α) :
    l.foldl step (d.rename f) = (l.foldl step d).rename f :=
  List.foldl_hom (rename f) hstep

@[simp] theorem ite_rename (p : Prop) [Decidable p] (d d' : Drawing K) :
    (if p then d.rename f else d'.rename f) = (if p then d else d').rename f :=
  (apply_ite (rename f) p d d').symm

/-- A loop that carries something else beside the drawing. -/
theorem foldl_map_rename {α σ : Type} {step : σ × Drawing K → α → σ × Drawing K}
    (hstep : ∀ state a, step (state.map id (rename f)) a = (step state a).map id (rename f))
    (l : List α) (x : σ) :
    l.foldl step (x, d.rename f) = (l.foldl step (x, d)).map id (rename f) :=
  by
  change l.foldl step (Prod.map id (rename f) (x, d)) = _
  exact List.foldl_hom _ hstep

/-- A loop that adds something up beside the drawing. -/
theorem foldl_map_rename' {α σ : Type} {step : Drawing K × σ → α → Drawing K × σ}
    (hstep : ∀ state a, step (state.map (rename f) id) a = (step state a).map (rename f) id)
    (l : List α) (x : σ) :
    l.foldl step (d.rename f, x) = (l.foldl step (d, x)).map (rename f) id := by
  change l.foldl step (Prod.map (rename f) id (d, x)) = _
  exact List.foldl_hom _ hstep

/-- A change of a body that leaves its names alone. -/
theorem modify_map_rename {g : Body K → Body K} (hg : ∀ b, g (b.rename f) = (g b).rename f)
    (bodies : Array (Body K)) (v : Nat) :
    (bodies.map (·.rename f)).modify v g = (bodies.modify v g).map (·.rename f) := by
  ext i hi hi'
  · simp
  · simp only [Array.getElem_modify, Array.getElem_map]
    split
    · exact hg _
    · rfl

theorem modifyBody_rename {g : Body K → Body K} (hg : ∀ b, g (b.rename f) = (g b).rename f)
    (v : Nat) : (d.rename f).modifyBody v g = (d.modifyBody v g).rename f := by
  simp only [modifyBody, rename, modify_map_rename f hg]

@[simp] theorem modifySeat_rename (v : Nat) (g : Seat K → Seat K) :
    (d.rename f).modifySeat v g = (d.modifySeat v g).rename f :=
  modifyBody_rename f d (fun _ => by rfl) v

@[simp] theorem nodeBoxes_rename : (d.rename f).nodeBoxes = d.nodeBoxes := by
  simp [nodeBoxes, rename, ← List.map_take]

@[simp] theorem renumber_rename (start : Nat) (order : List Nat) :
    (d.rename f).renumber start order = (d.renumber start order).rename f := by
  simp [renumber]

variable [Scalar K]

@[simp] theorem ring_rename : (d.rename f).ring = d.ring := rfl

@[simp] theorem link_rename : (d.rename f).link = d.link := rfl

@[simp] theorem getD_map_rename (bodies : Array (Body K)) (v : Nat) :
    (bodies.map (·.rename f)).getD v Body.blank = (bodies.getD v Body.blank).rename f := by
  simp only [Array.getD_eq_getD_getElem?, Array.getElem?_map]
  cases bodies[v]? <;> rfl

@[simp] theorem body_rename (v : Nat) : (d.rename f).body v = (d.body v).rename f :=
  getD_map_rename f d.bodies v

@[simp] theorem setCenter_rename (v : Nat) (p : Point K) :
    (d.rename f).setCenter v p = (d.setCenter v p).rename f :=
  modifyBody_rename f d (fun _ => by rfl) v

@[simp] theorem translateBody_rename (v : Nat) (delta : Point K) :
    (d.rename f).translateBody v delta = (d.translateBody v delta).rename f :=
  modifyBody_rename f d (fun _ => by rfl) v

/-! ## Rings -/

@[simp] theorem ringCenter_rename (c : Nat) : (d.rename f).ringCenter c = d.ringCenter c := by
  simp [ringCenter]

@[simp] theorem seatOf_rename (v : Nat) : (d.rename f).seatOf v = d.seatOf v := by
  simp [seatOf]

@[simp] theorem angleOf_rename (v : Nat) : (d.rename f).angleOf v = d.angleOf v := by
  simp [angleOf]

@[simp] theorem isOutNode_rename (v : Nat) : (d.rename f).isOutNode v = d.isOutNode v := by
  simp [isOutNode]

@[simp] theorem placeMembers_rename (c : Nat) :
    (d.rename f).placeMembers c = (d.placeMembers c).rename f := by
  simp [placeMembers]

@[simp] theorem longestDiagonal_rename (members : List Nat) :
    (d.rename f).longestDiagonal members = d.longestDiagonal members := by
  simp [longestDiagonal]

@[simp] theorem fitHub_rename (c : Nat) : (d.rename f).fitHub c = (d.fitHub c).rename f := by
  simp only [fitHub, ring_rename, longestDiagonal_rename]
  exact modifyBody_rename f d (fun _ => by rfl) _

@[simp] theorem assignAngles_rename (radius first : K) (index : Nat) (angle : K)
    (members : List (Nat × K)) :
    assignAngles radius first index angle members (d.rename f) =
      (assignAngles radius first index angle members d).rename f := by
  induction members generalizing d index angle with
  | nil => rfl
  | cons m members ih => simp only [assignAngles, modifySeat_rename, ih]

@[simp] theorem spread_rename (c : Nat) (separation : K) :
    (d.rename f).spread c separation = (d.spread c separation).rename f := by
  simp only [spread, ring_rename]
  cases (d.ring c).order with
  | nil => rfl
  | cons first rest => simp

@[simp] theorem translateRing_rename (c : Nat) (delta : Point K) :
    (d.rename f).translateRing c delta = (d.translateRing c delta).rename f := by
  simp [translateRing]

@[simp] theorem rotateRing_rename (c : Nat) (angle : K) :
    (d.rename f).rotateRing c angle = (d.rotateRing c angle).rename f := by
  simp [rotateRing]

@[simp] theorem swapWithNext_rename (c i : Nat) :
    (d.rename f).swapWithNext c i = (d.swapWithNext c i).rename f := by
  simp only [swapWithNext, ring_rename]
  split <;> simp

@[simp] theorem reverseRing_rename (c : Nat) :
    (d.rename f).reverseRing c = (d.reverseRing c).rename f := by
  simp only [reverseRing, ring_rename]
  split <;> simp

@[simp] theorem chords_rename (c : Nat) : (d.rename f).chords c = d.chords c := by
  simp [chords]

@[simp] theorem crossingCount_rename (c : Nat) :
    (d.rename f).crossingCount c = d.crossingCount c := by
  simp [crossingCount]

@[simp] theorem moveInside_rename (c v : Nat) :
    (d.rename f).moveInside c v = (d.moveInside c v).rename f := by
  simp only [moveInside, ring_rename]
  split
  · rfl
  · rw [renumber_rename, modifyRing_rename, modifyBody_rename f _ (fun _ => by rfl)]
    rfl

/-! ## Reversals and exchanges -/

@[simp] theorem mayTestReversal_rename (c : Nat) :
    (d.rename f).mayTestReversal c = d.mayTestReversal c := rfl

@[simp] theorem outerLinksOf_rename (v : Nat) :
    (d.rename f).outerLinksOf v = d.outerLinksOf v := by
  simp [outerLinksOf]

@[simp] theorem alignmentScores?_rename (c : Nat) :
    (d.rename f).alignmentScores? c = d.alignmentScores? c := by
  have hword : (d.rename f).word = d.word := by
    funext members
    simp [word]
  have hfar : (d.rename f).farWord c = d.farWord c := by
    funext members
    simp [farWord, farEnds]
  simp only [alignmentScores?, hword, hfar]
  rfl

@[simp] theorem tryReverse_rename (c : Nat) :
    (d.rename f).tryReverse c = (d.tryReverse c).map id (rename f) := by
  simp only [tryReverse, mayTestReversal_rename, alignmentScores?_rename, reverseRing_rename,
    modifyRing_rename]
  split
  · split
    · split <;> rfl
    · rfl
  · rfl

@[simp] theorem linkCrossings_rename (u v : Nat) :
    (d.rename f).linkCrossings u v = d.linkCrossings u v := by
  have hends : ∀ v, (d.rename f).seatedEnd? v = d.seatedEnd? v := fun v => by
    funext e
    simp [seatedEnd?]
  have hcross : (d.rename f).linksCross? = d.linksCross? := rfl
  simp only [linkCrossings, body_rename, Body.seat?_rename, hends, hcross]

@[simp] theorem exchangeUntangles_rename (u v : Nat) :
    (d.rename f).exchangeUntangles u v = d.exchangeUntangles u v := by
  simp only [exchangeUntangles, linkCrossings_rename]

@[simp] theorem refreshPair_rename (c i : Nat) :
    refreshPair c (d.rename f) i = (refreshPair c d i).rename f := by
  simp only [refreshPair, ring_rename, exchangeUntangles_rename, modifySeat_rename]
  split <;> rfl

@[simp] theorem refreshExchanges_rename :
    (d.rename f).refreshExchanges = d.refreshExchanges.rename f := by
  simp only [refreshExchanges, ringNumbers_rename,
    foldl_rename f d fun d c => observeOrder_rename f d c]
  simp

@[simp] theorem candidates_rename (m : ExchangeMemory) (c : Nat) :
    (d.rename f).candidates m c = d.candidates m c := by
  have hcandidate : (d.rename f).candidate? m c = d.candidate? m c := by
    funext i
    simp [candidate?]
  simp [candidates, hcandidate]

@[simp] theorem tryExchange_rename (c : Nat) (p : Candidate K) :
    (d.rename f).tryExchange c p = (d.tryExchange c p).map id (rename f) := by
  simp only [tryExchange, ring_rename, swapWithNext_rename, crossingCount_rename]
  split
  · split <;> rfl
  · rfl

theorem exchangeFirst_rename (c : Nat) (ps : List (Candidate K)) :
    exchangeFirst c ps (d.rename f) = (exchangeFirst c ps d).map id (rename f) := by
  induction ps generalizing d with
  | nil => rfl
  | cons p ps ih =>
      simp only [exchangeFirst, tryExchange_rename, Prod.map_fst, Prod.map_snd, id, ih]
      split <;> rfl

theorem exchangeAll_rename (c : Nat) (touched : List Nat) (ps : List (Candidate K)) :
    exchangeAll c touched ps (d.rename f) = (exchangeAll c touched ps d).map id (rename f) := by
  induction ps generalizing d touched with
  | nil => rfl
  | cons p ps ih =>
      simp only [exchangeAll, tryExchange_rename, Prod.map_fst, Prod.map_snd, id, ih]
      split
      · rfl
      · split <;> rfl

theorem exchangeOnRing_rename (m : ExchangeMemory) (state : List (Nat × Nat) × Drawing K)
    (c : Nat) :
    exchangeOnRing m (state.map id (rename f)) c =
      (exchangeOnRing m state c).map id (rename f) := by
  obtain ⟨pairs, d⟩ := state
  simp only [exchangeOnRing, Prod.map_apply, id, ring_rename, candidates_rename,
    exchangeFirst_rename, exchangeAll_rename, Prod.map_fst, Prod.map_snd]
  split
  · rfl
  · split <;> rfl

theorem performExchanges_rename (m : ExchangeMemory) :
    (d.rename f).performExchanges m =
      (d.performExchanges m).map id (Prod.map (rename f) id) := by
  have hrounds : d.ringNumbers.foldl (exchangeOnRing m) ([], d.rename f) =
      (d.ringNumbers.foldl (exchangeOnRing m) ([], d)).map id (rename f) :=
    foldl_map_rename f d (exchangeOnRing_rename f m) _ _
  simp only [performExchanges, ringNumbers_rename, hrounds, Prod.map_fst, Prod.map_snd, id,
    seated_rename]
  simp

end Drawing

end RingLayout
