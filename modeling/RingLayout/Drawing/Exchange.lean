import RingLayout.Drawing.Rings

/-! # Exchanging neighbours

Two neighbours on a ring change places when both are pulled the same way and the one behind is
pulled harder. Iterations run in periods of 25: an idle stretch, a stretch in which pulls are
gathered, and one iteration that carries exchanges out. Pairs exchanged in one round stay in place
in the next.
-/

namespace RingLayout

/-- The part that an iteration plays in its period. -/
inductive ExchangePhase where
  | idle
  | beginGathering
  | gathering
  | carryOut
deriving Repr, DecidableEq

namespace ExchangePhase

/-- The phase of an iteration, counted from 1. -/
def ofIteration (iteration : Nat) : ExchangePhase :=
  let k := (iteration - 1) % 25
  if k < 19 then .idle
  else if k = 19 then .beginGathering
  else if k < 24 then .gathering
  else .carryOut

def gathers : ExchangePhase → Bool
  | .beginGathering => true
  | .gathering => true
  | _ => false

end ExchangePhase

/-- The pairs that are not to be exchanged back. -/
structure ExchangeMemory where
  /-- The pairs of the last round that exchanged any, since the memory was last cleared. -/
  held : List (Nat × Nat)
  rounds : Nat
deriving Repr, DecidableEq

namespace ExchangeMemory

def empty : ExchangeMemory := ⟨[], 0⟩

/-- An unordered pair, the smaller number first. -/
def pair (u v : Nat) : Nat × Nat := (min u v, max u v)

def holds (m : ExchangeMemory) (u v : Nat) : Bool := m.held.contains (pair u v)

/-- The rounds after which everything is forgotten. -/
def clearance : Nat := 5

def endRound (m : ExchangeMemory) (exchanged : List (Nat × Nat)) : ExchangeMemory :=
  let rounds := m.rounds + 1
  let held := if exchanged.isEmpty then m.held else exchanged
  ⟨if rounds % clearance = 0 then [] else held, rounds⟩

end ExchangeMemory

namespace Drawing

variable {K : Type} [Scalar K]

/-- The far end of a link from `v`, if it is seated, with its ring. -/
@[specialize] def seatedEnd? (d : Drawing K) (v e : Nat) : Option (Nat × Nat) :=
  let far := (d.link e).other v
  (d.body far).seat?.map fun s => (far, s.ring)

/-- Whether links from two neighbours to distinct members `a` and `b` of one other ring cross.
Facing rings run in opposite directions, so they do when `b` follows `a` within half a turn. -/
@[specialize] def linksCross? (d : Drawing K) (a b : Nat × Nat) : Option Bool :=
  if a.1 = b.1 ∨ a.2 ≠ b.2 then none
  else
    match (d.ring a.2).observedOrder with
    | some order => CyclicOrder.precedes? order a.1 b.1
    | none => none

/-- For every pair of outer links of `u` and its next member `v` that end on one ring, whether
they cross. -/
@[specialize] def linkCrossings (d : Drawing K) (u v : Nat) : List Bool :=
  match (d.body u).seat?, (d.body v).seat? with
  | some s, some t =>
    (s.outerLinks.filterMap (d.seatedEnd? u)).flatMap fun a =>
      (t.outerLinks.filterMap (d.seatedEnd? v)).filterMap (d.linksCross? a)
  | _, _ => []

/-- Whether an exchange of two neighbours would uncross at least as many links as it would
cross. -/
@[specialize] def exchangeUntangles (d : Drawing K) (u v : Nat) : Bool :=
  let crossings := d.linkCrossings u v
  decide (crossings.count false ≤ crossings.count true)

/-- Works out for the member at an index whether it may change places with the next one. -/
@[specialize] def refreshPair (c : Nat) (d : Drawing K) (i : Nat) : Drawing K :=
  let order := (d.ring c).order
  match order[i]?, order[CyclicOrder.next order i]? with
  | some u, some v =>
    let allowed := decide (3 ≤ order.length) && d.exchangeUntangles u v
    let d := d.modifySeat u fun s => { s with swapsNext := allowed }
    d.modifySeat v fun s => { s with swapsPrevious := allowed }
  | _, _ => d

@[specialize] def refreshExchanges (d : Drawing K) : Drawing K :=
  let d := d.ringNumbers.foldl observeOrder d
  d.ringNumbers.foldl
    (fun d c => (List.range (d.ring c).order.length).foldl (refreshPair c) d) d

/-- Two neighbours that want to change places. -/
structure Candidate (K : Type) where
  index : Nat
  u : Nat
  v : Nat
  /-- How much harder the one behind is pulled. -/
  excess : K
  bothOut : Bool

/-- The pair at an index of a ring, if it wants to change places and may. -/
@[specialize] def candidate? (d : Drawing K) (m : ExchangeMemory) (c i : Nat) :
    Option (Candidate K) :=
  let order := (d.ring c).order
  match order[i]?, order[CyclicOrder.next order i]? with
  | some u, some v =>
    match (d.body u).seat?, (d.body v).seat? with
    | some s, some t =>
      if s.pull * t.pull ≤ 0.0 ∨ s.pull ≤ t.pull then none
      else if s.swapsNext && t.swapsPrevious && !m.holds u v then
        some ⟨i, u, v, s.pull - t.pull, d.isOutNode u && d.isOutNode v⟩
      else none
    | _, _ => none
  | _, _ => none

/-- The candidates of a ring, by falling excess. -/
@[specialize] def candidates (d : Drawing K) (m : ExchangeMemory) (c : Nat) :
    List (Candidate K) :=
  ((List.range (d.ring c).order.length).filterMap (d.candidate? m c)).mergeSort
    fun a b => Scalar.sortLe b.excess a.excess

/-- Exchanges a candidate unless chords would cross more often; says whether it did. A candidate
that is no longer at its index is refused. -/
@[specialize] def tryExchange (d : Drawing K) (c : Nat) (p : Candidate K) : Bool × Drawing K :=
  let order := (d.ring c).order
  if order[p.index]? = some p.u ∧ order[CyclicOrder.next order p.index]? = some p.v then
    let swapped := d.swapWithNext c p.index
    if d.crossingCount c < swapped.crossingCount c then
      (false, swapped.swapWithNext c p.index)
    else (true, swapped)
  else (false, d)

@[specialize] def exchangeFirst (c : Nat) :
    List (Candidate K) → Drawing K → Option (Nat × Nat) × Drawing K
  | [], d => (none, d)
  | p :: ps, d =>
    let (done, d) := d.tryExchange c p
    if done then (some (ExchangeMemory.pair p.u p.v), d) else exchangeFirst c ps d

/-- Exchanges all possible candidates of a list, each member at most once; `touched` are the
members exchanged so far. -/
@[specialize] def exchangeAll (c : Nat) :
    List Nat → List (Candidate K) → Drawing K → List (Nat × Nat) × Drawing K
  | _, [], d => ([], d)
  | touched, p :: ps, d =>
    if touched.contains p.u || touched.contains p.v then exchangeAll c touched ps d
    else
      let (done, d) := d.tryExchange c p
      if done then
        let (pairs, d) := exchangeAll c (p.u :: p.v :: touched) ps d
        (ExchangeMemory.pair p.u p.v :: pairs, d)
      else exchangeAll c touched ps d

/-- The exchanges of a round on one ring: the first possible pair of out-nodes alone, or else all
other pairs with an excess above 1. -/
@[specialize] def exchangeOnRing (m : ExchangeMemory)
    (state : List (Nat × Nat) × Drawing K) (c : Nat) : List (Nat × Nat) × Drawing K :=
  let (pairs, d) := state
  if (d.ring c).order.length < 3 then (pairs, d)
  else
    let all := d.candidates m c
    let (first, d) := exchangeFirst c (all.filter (·.bothOut)) d
    match first with
    | some pair => (pairs ++ [pair], d)
    | none =>
      let (more, d) :=
        exchangeAll c [] (all.filter fun p => !p.bothOut && decide (1.0 < p.excess)) d
      (pairs ++ more, d)

/-- Carries out a round of exchanges and clears the pulls. Gives the number of exchanges. -/
@[specialize] def performExchanges (d : Drawing K) (m : ExchangeMemory) :
    Nat × Drawing K × ExchangeMemory :=
  let (pairs, d) := d.ringNumbers.foldl (exchangeOnRing m) ([], d)
  let d := d.seated.foldl (fun d v => d.modifySeat v fun s => { s with pull := 0.0 }) d
  (pairs.length, d, m.endRound pairs)

end Drawing

end RingLayout
