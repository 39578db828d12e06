import RingLayout.Proofs.Record
import RingLayout.Proofs.Scalar.One
import RingLayout.Proofs.Seclusion

/-! # Ideal lengths and the steps of a run

Up to the exchanges nobody is inside a ring, and all links have the lengths that they got when the
rings were arranged. When the exchanges are left, members go inside in one pass over the rings, if
they may, and only then links get longer. The record of a run shows that the exchanges are left
once at most.
-/

namespace RingLayout

variable {K : Type} [Scalar K]

namespace Drawing

/-! ## Lengths -/

/-- Whether an end of a link is inside a ring. -/
def touchesInside (d : Drawing K) (l : Link K) : Bool :=
  (d.body l.source).role.isInside || (d.body l.target).role.isInside

/-- Whether a link has an end on a ring that it leads out of. -/
def leadsOut (d : Drawing K) (l : Link K) : Bool :=
  ((d.body l.source).role.ring?.isSome || (d.body l.target).role.ring?.isSome) && !l.isInner

/-- The ideal length of a link while nobody is inside a ring and nothing is stretched. -/
def restLength (o : Options K) (d : Drawing K) (l : Link K) : K :=
  if d.leadsOut l then o.effectiveEdgeLength * o.effectiveInterCluster else o.effectiveEdgeLength

/-- Nobody is inside a ring. -/
structure Vacant (d : Drawing K) : Prop where
  ring_inside : ∀ c, (d.ring c).inside = []
  isInside_eq : ∀ v, (d.body v).role.isInside = false

/-- Nobody is inside a ring, and no link is stretched. -/
structure Resting (o : Options K) (d : Drawing K) : Prop extends Vacant d where
  idealLength_eq : ∀ e < d.links.size, (d.link e).idealLength = d.restLength o (d.link e)

/-- The second drawing has the links of the first. Those at a member inside a ring are short, all
others half as long again as before. -/
structure Stretched (d d' : Drawing K) : Prop where
  size_eq : d'.links.size = d.links.size
  shape_eq : ∀ e < d'.links.size, (d'.link e).shape = (d.link e).shape
  idealLength_eq : ∀ e < d'.links.size, (d'.link e).idealLength =
    if d'.touchesInside (d'.link e) then 10.0 else (d.link e).idealLength * 1.5

variable {o : Options K} {d d' d'' : Drawing K}

theorem touchesInside_congr (h : Alike Body.standing d d') (l : Link K) :
    d'.touchesInside l = d.touchesInside l := by
  have hsame : ∀ v, (d'.body v).role.isInside = (d.body v).role.isInside :=
    fun v => congrArg Prod.snd (h.view_eq v)
  rw [touchesInside, touchesInside, hsame, hsame]

theorem restLength_congr (h : ∀ v, (d'.body v).role.ring? = (d.body v).role.ring?)
    (l : Link K) : d'.restLength o l = d.restLength o l := by
  rw [restLength, restLength, leadsOut, leadsOut, h, h]

theorem Vacant.congr (hd : Vacant d) (h : Alike Body.standing d d') : Vacant d' where
  ring_inside c := (h.inside_eq c).trans (hd.ring_inside c)
  isInside_eq v := (congrArg Prod.snd (h.view_eq v)).trans (hd.isInside_eq v)

theorem Vacant.touchesInside_eq (hd : Vacant d) (l : Link K) : d.touchesInside l = false := by
  rw [touchesInside, hd.isInside_eq, hd.isInside_eq]
  rfl

theorem Resting.congr (hd : Resting o d) (h : Keeps Body.standing d d') : Resting o d' where
  toVacant := hd.toVacant.congr h.toAlike
  idealLength_eq e he := by
    rw [h.links_eq] at he
    rw [link_of_links h.links_eq, restLength_congr fun v => congrArg Prod.fst (h.view_eq v)]
    exact hd.idealLength_eq e he

theorem Stretched.congr (hd : Stretched d d') (h : Keeps Body.standing d' d'') :
    Stretched d d'' where
  size_eq := h.links_eq ▸ hd.size_eq
  shape_eq e he := by
    rw [link_of_links h.links_eq]
    exact hd.shape_eq e (h.links_eq ▸ he)
  idealLength_eq e he := by
    rw [h.links_eq] at he
    rw [link_of_links h.links_eq, touchesInside_congr h.toAlike]
    exact hd.idealLength_eq e he

/-- The length that a link is given, by where its ends are. -/
theorem idealLengthOf_eq (d : Drawing K) (o : Options K) (factor : K) (l : Link K) :
    d.idealLengthOf o factor l =
      if d.touchesInside l then 10.0 else d.restLength o l * factor := by
  rw [idealLengthOf, restLength, touchesInside, leadsOut]
  split
  · rfl
  · rw [ite_mul]
    rfl

theorem link_assignIdealLengths (d : Drawing K) (o : Options K) (factor : K) {e : Nat}
    (he : e < d.links.size) : (d.assignIdealLengths o factor).link e =
      { d.link e with idealLength := d.idealLengthOf o factor (d.link e) } := by
  simp [assignIdealLengths, link, he]

/-- With nobody inside, the first lengths are those at rest. -/
theorem Vacant.resting_assignIdealLengths [LawfulOne K] (hd : Vacant d) (o : Options K) :
    Resting o (d.assignIdealLengths o 1.0) where
  toVacant := hd.congr (alike_assignIdealLengths _ d o 1.0)
  idealLength_eq e he := by
    have he : e < d.links.size := by simpa [assignIdealLengths] using he
    rw [d.link_assignIdealLengths o _ he, idealLengthOf_eq, hd.touchesInside_eq,
      if_neg Bool.false_ne_true, LawfulOne.mul_one]
    rfl

/-- With the links of a drawing at rest, the last lengths are stretched ones. -/
theorem Resting.stretched_assignIdealLengths (hd : Resting o d) (hlinks : d'.links = d.links)
    (hring : ∀ v, (d'.body v).role.ring? = (d.body v).role.ring?) :
    Stretched d (d'.assignIdealLengths o 1.5) where
  size_eq := by simp [assignIdealLengths, hlinks]
  shape_eq e he := by
    have he : e < d'.links.size := by simpa [assignIdealLengths] using he
    rw [d'.link_assignIdealLengths o _ he, link, hlinks]
    rfl
  idealLength_eq e he := by
    have he : e < d'.links.size := by simpa [assignIdealLengths] using he
    rw [d'.link_assignIdealLengths o _ he, idealLengthOf_eq, restLength_congr hring,
      link_of_links hlinks, ← hd.idealLength_eq e (hlinks ▸ he)]
    rfl

end Drawing

namespace Run

open Drawing (Alike Keeps Vacant Resting Stretched steady_standing hidesRules_standing
  hidesPulls_standing)
open Skeleton (Evolves Secludes)

variable {members : Nat → List Nat} {o : Options K} {built : Drawing K} {r r' : Run K}
  {ws : List (Run K)}

/-! ## Going from step to step -/

/-- The states in which the step of the exchanges was left. -/
def exchangesLeft (ws : List (Run K)) : List (Run K) := ws.filter fun w => w.step = .exchange

omit [Scalar K] in
theorem exchangesLeft_concat (ws : List (Run K)) (w : Run K) : exchangesLeft (ws ++ [w]) =
    exchangesLeft ws ++ if w.step = .exchange then [w] else [] := by
  by_cases hstep : w.step = .exchange <;> simp [exchangesLeft, hstep]

/-- A drawing has seen the exchanges left in some state, in which everything was at rest. -/
structure Passed (members : Nat → List Nat) (o : Options K) (w : Run K) (d : Drawing K) :
    Prop where
  options_eq : w.options = o
  sound : w.drawing.skeleton.Sound members
  resting : Resting o w.drawing
  alike : Alike Body.standing w.leaveStep.drawing d

/-- A run agrees with the steps that it has left. -/
structure Recorded (members : Nat → List Nat) (o : Options K) (built : Drawing K)
    (ws : List (Run K)) (r : Run K) : Prop where
  options_eq : r.options = o
  secludes : Secludes members built.skeleton r.drawing.skeleton
  pending : r.stage = .simulating → r.step.rank ≤ Step.exchange.rank →
    exchangesLeft ws = [] ∧ Resting o r.drawing
  polish : r.stage = .simulating → r.step = .polish → ∃ w, exchangesLeft ws = [w] ∧
    Stretched w.drawing r.drawing
  passed : exchangesLeft ws = [] ∧ Vacant r.drawing ∨ ∃ w, exchangesLeft ws = [w] ∧
    Passed members o w r.drawing

theorem leaveStep_drawing_of_exchange (hstep : r.step = .exchange) : r.leaveStep.drawing =
    if r.options.allowInside then (r.drawing.relocateInside r.options.effectiveInsideRatio
      r.options.effectiveSeparation).2 else r.drawing := by
  unfold leaveStep
  simp only [hstep, decide_true, Bool.true_and]
  split <;> rfl

theorem links_leaveStep (r : Run K) : r.leaveStep.drawing.links = r.drawing.links := by
  unfold leaveStep
  split
  · exact Drawing.links_relocateInside _ _ _
  · rfl

theorem evolves_worked (hd : r.drawing.skeleton.Sound members) :
    Evolves members r.drawing.skeleton r.worked.drawing.skeleton :=
  (drifts_worked (S := fun _ => True) hd).evolves hd

theorem secludes_leaveStep (hd : r.drawing.skeleton.Sound members) :
    Secludes members r.drawing.skeleton r.leaveStep.drawing.skeleton := by
  unfold leaveStep
  split
  · exact Drawing.secludes_relocateInside hd _ _
  · exact .refl hd

namespace Recorded

variable (h : Recorded members o built ws r)
include h

/-- A change that nobody notices who looks at links and insides. -/
theorem congr (hoptions : r'.options = r.options)
    (hevolves : Evolves members r.drawing.skeleton r'.drawing.skeleton)
    (hkeeps : Keeps Body.standing r.drawing r'.drawing)
    (hpending : r'.stage = .simulating → r'.step.rank ≤ Step.exchange.rank →
      r.stage = .simulating ∧ r.step.rank ≤ Step.exchange.rank)
    (hpolish : r'.stage = .simulating → r'.step = .polish →
      r.stage = .simulating ∧ r.step = .polish) : Recorded members o built ws r' where
  options_eq := hoptions.trans h.options_eq
  secludes := h.secludes.trans (Drawing.secludes_of_alike hevolves hkeeps.toAlike)
  pending hstage hrank := by
    obtain ⟨hstage, hrank⟩ := hpending hstage hrank
    obtain ⟨hnone, hresting⟩ := h.pending hstage hrank
    exact ⟨hnone, hresting.congr hkeeps⟩
  polish hstage hstep := by
    obtain ⟨hstage, hstep⟩ := hpolish hstage hstep
    obtain ⟨w, hleft, hstretched⟩ := h.polish hstage hstep
    exact ⟨w, hleft, hstretched.congr hkeeps⟩
  passed := by
    rcases h.passed with ⟨hnone, hvacant⟩ | ⟨w, hleft, hpassed⟩
    · exact Or.inl ⟨hnone, hvacant.congr hkeeps.toAlike⟩
    · exact Or.inr ⟨w, hleft, hpassed.options_eq, hpassed.sound, hpassed.resting,
        hpassed.alike.trans hkeeps.toAlike⟩

/-- A simulation may end at any time. -/
theorem finished (hoptions : r'.options = r.options) (hdrawing : r'.drawing = r.drawing)
    (hstage : r'.stage ≠ .simulating) : Recorded members o built ws r' := by
  apply h.congr hoptions
  case hevolves =>
    rw [hdrawing]
    exact .refl h.secludes.sound
  case hkeeps =>
    rw [hdrawing]
    exact .refl _ _
  case hpending => exact fun heq => absurd heq hstage
  case hpolish => exact fun heq => absurd heq hstage

/-- When the exchanges are left, members go inside before links are stretched. -/
theorem pass (hstage : r.stage = .simulating) (hstep : r.step = .exchange) :
    Recorded members o built (ws ++ [r]) (r.leaveStep.enterStep .polish) := by
  obtain ⟨hnone, hresting⟩ := h.pending hstage (by rw [hstep])
  have hoptions : r.leaveStep.options = o := r.options_leaveStep.trans h.options_eq
  have hleft : exchangesLeft (ws ++ [r]) = [r] := by
    rw [exchangesLeft_concat, hnone, if_pos hstep, List.nil_append]
  have hseclude := secludes_leaveStep h.secludes.sound
  have hdrawing : (r.leaveStep.enterStep .polish).drawing =
      r.leaveStep.drawing.assignIdealLengths o 1.5 := by
    rw [← hoptions]
    rfl
  constructor
  case options_eq => exact hoptions
  case secludes =>
    rw [hdrawing, Drawing.skeleton_assignIdealLengths]
    exact h.secludes.trans hseclude
  case pending =>
    have hpast : ¬Step.polish.rank ≤ Step.exchange.rank := by decide
    exact fun _ hrank => absurd hrank hpast
  case polish =>
    refine fun _ _ => ⟨r, hleft, hdrawing ▸ hresting.stretched_assignIdealLengths ?_ fun v => ?_⟩
    · exact r.links_leaveStep
    · rw [← Drawing.ring?_wiring, hseclude.wiring_eq, Drawing.ring?_wiring]
  case passed =>
    refine Or.inr ⟨r, hleft, h.options_eq, h.secludes.sound, hresting, hdrawing ▸ ?_⟩
    exact Drawing.alike_assignIdealLengths _ _ o 1.5

/-- A step is left for the next one. -/
theorem next (hstage : r.stage = .simulating) (hstep : r.step ≠ .done) :
    Recorded members o built (ws ++ [r]) (r.leaveStep.enterStep r.leaveStep.step.next) := by
  rw [step_leaveStep]
  by_cases hexchange : r.step = .exchange
  · rw [hexchange]
    exact h.pass hstage hexchange
  · have hleft : exchangesLeft (ws ++ [r]) = exchangesLeft ws := by
      rw [exchangesLeft_concat, if_neg hexchange, List.append_nil]
    have hnext := Step.rank_next hstep
    have hpolish : r.step.next ≠ .polish := by
      revert hexchange
      cases r.step <;> simp [Step.next]
    rw [leaveStep_of_ne hexchange]
    -- what is on record of the exchanges stays, and only the last step assigns lengths
    have hlog : Recorded members o built (ws ++ [r]) r :=
      ⟨h.options_eq, h.secludes, hleft ▸ h.pending, hleft ▸ h.polish, hleft ▸ h.passed⟩
    have hoptions : (r.enterStep r.step.next).options = r.options := rfl
    apply hlog.congr hoptions
    case hevolves =>
      exact (drifts_prepareFor (S := fun _ => True) r.options _ r.drawing).evolves
        h.secludes.sound
    case hkeeps => exact keeps_prepareFor hidesRules_standing r.options hpolish r.drawing
    case hpending =>
      intro _ hrank
      refine ⟨hstage, Nat.le_trans (Nat.le_succ _) ?_⟩
      rw [← Nat.add_one, ← hnext]
      exact hrank
    case hpolish => exact fun _ heq => absurd heq hpolish

theorem advanceStepBy (fuel : Nat) (hstage : r.stage = .simulating) (hstep : r.step ≠ .done) :
    Recorded members o built (ws ++ leavings fuel r) (advanceStepBy fuel r) := by
  apply advanceStepBy_induct (P := Recorded members o built) fuel ws hstage hstep h
  case hnext => exact fun ws r hstage hstep h => h.next hstage hstep
  case hover =>
    intro ws r r' hoptions hdrawing hstage h
    exact h.finished hoptions hdrawing (hstage ▸ Stage.noConfusion)

theorem iterate (hstage : r.stage = .simulating) (hstep : r.step ≠ .done) :
    Recorded members o built (ws ++ r.iterationLeavings) r.iterate := by
  obtain ⟨w, hdrawing, hsame, hstage', hoptions, -, hcases⟩ := r.iterationLeavings_cases
  have hw : Recorded members o built ws w := by
    apply h.congr hoptions
    case hevolves =>
      rw [hdrawing]
      exact evolves_worked h.secludes.sound
    case hkeeps =>
      rw [hdrawing]
      exact keeps_worked steady_standing hidesRules_standing r hidesPulls_standing
    case hpending => exact fun _ hrank => ⟨hstage, hsame ▸ hrank⟩
    case hpolish => exact fun _ heq => ⟨hstage, hsame.symm.trans heq⟩
  rcases hcases with ⟨heq, hnone⟩ | ⟨heq, hleft⟩
  · rw [heq, hnone, List.append_nil]
    exact hw
  · rw [heq, hleft]
    exact hw.advanceStepBy 6 (hstage'.trans hstage) (hsame ▸ hstep)

end Recorded

/-! ## The preparation -/

theorem begun_eq (r : Run K) : r.begun.options = r.placed.options ∧ r.begun.stage = .simulating ∧
    r.begun.step = .settle ∧ r.begun.drawing = r.placed.drawing := by
  unfold begun
  generalize r.placed = w
  exact ⟨rfl, rfl, rfl, rfl⟩

/-- Links get their first lengths while nobody is inside. -/
theorem resting_placeRings [LawfulOne K] {d : Drawing K} (hd : Vacant d) (o : Options K) :
    Resting o (placeRings d o) := by
  have harranged := keeps_arrangeAll steady_standing d o.effectiveSeparation
  rw [placeRings_eq]
  exact ((hd.congr harranged.toAlike).resting_assignIdealLengths o).congr
    (Placement.keeps_apply steady_standing _ _)

theorem resting_placed [LawfulOne K] (hd : Vacant r.drawing) :
    Resting r.options r.placed.drawing := by
  unfold placed
  dsimp only
  split
  · obtain ⟨d, random, hseed⟩ := r.seedNodes_eq
    have hkeeps := keeps_seedNodes steady_standing r
    rw [hseed] at hkeeps ⊢
    exact resting_placeRings (hd.congr hkeeps.toAlike) _
  · exact resting_placeRings hd _

theorem evolves_placed (hd : r.drawing.skeleton.Sound members) :
    Evolves members r.drawing.skeleton r.placed.drawing.skeleton := by
  obtain ⟨seeded, hseeded, hdrifts⟩ := drifts_placed (S := fun _ => True) trivial hd
  have hsound : seeded.skeleton.Sound members := hseeded.skeleton_eq.symm ▸ hd
  rw [← hseeded.skeleton_eq]
  have harranged : Drawing.Drifts (fun _ => True) seeded
      (arrangeAll seeded r.options.effectiveSeparation) := drifts_arrangeAll seeded trivial
  exact (harranged.trans hdrifts).evolves hsound

/-- The drawing of a valid graph is built with nobody inside a ring. -/
theorem vacant_build {g : Graph K} (h : Drawing.build g o = .ok built) : Vacant built where
  ring_inside c := by
    refine List.eq_nil_iff_forall_not_mem.mpr fun v hv => ?_
    exact Drawing.place_build_ne_inside h v c (((Drawing.seated_build h).inside_iff v c).mpr hv)
  isInside_eq v := by
    rw [Bool.eq_false_iff]
    intro hv
    obtain ⟨c, hc⟩ := Role.isInside_iff.mp hv
    exact Drawing.place_build_ne_inside h v c (Role.place_eq_inside_iff.mpr hc)

theorem secludes_of_vacant {d d' : Drawing K} (h : Evolves members d.skeleton d'.skeleton)
    (hd' : Vacant d') : Secludes members d.skeleton d'.skeleton := by
  refine .of_evolves h fun v c hv => ?_
  have hinside := hd'.isInside_eq v
  rw [Role.place_eq_inside_iff.mp hv] at hinside
  cases hinside

theorem recorded_begun [LawfulOne K] (hd : r.drawing.skeleton.Sound members)
    (hvacant : Vacant r.drawing) : Recorded members r.options r.drawing [] r.begun := by
  obtain ⟨hoptions, -, hstep, hdrawing⟩ := begun_eq r
  have hresting : Resting r.options r.begun.drawing := by
    rw [hdrawing]
    exact resting_placed hvacant
  constructor
  case options_eq =>
    obtain ⟨d, random, connected, heq⟩ := r.placed_eq
    rw [hoptions, heq]
  case secludes =>
    refine secludes_of_vacant ?_ hresting.toVacant
    rw [hdrawing]
    exact evolves_placed hd
  case pending => exact fun _ _ => ⟨rfl, hresting⟩
  case polish =>
    intro _ hpolish
    rw [hstep] at hpolish
    cases hpolish
  case passed => exact Or.inl ⟨rfl, hresting.toVacant⟩

/-- A run that has just been prepared agrees with the steps that it has left. -/
theorem recorded_prerun [LawfulOne K] (hcreated : r.stage = .created)
    (hd : r.drawing.skeleton.Sound members) (hvacant : Vacant r.drawing) :
    Recorded members r.options r.drawing r.prerunLeavings r.prerun := by
  have hbegun := recorded_begun hd hvacant
  rcases prerunLeavings_cases hcreated with
    ⟨hstage, hnone, hdrawing⟩ | ⟨heq, hnone⟩ | ⟨heq, hleft⟩
  · have hfinal : Vacant r.prerun.drawing ∧
        Evolves members r.drawing.skeleton r.prerun.drawing.skeleton := by
      rcases hdrawing with heq | heq <;> rw [heq]
      · exact ⟨hvacant, .refl hd⟩
      · exact ⟨(resting_placed hvacant).toVacant, evolves_placed hd⟩
    have hover : r.prerun.stage ≠ .simulating := hstage ▸ Stage.noConfusion
    rw [hnone]
    exact ⟨options_prerun r, secludes_of_vacant hfinal.2 hfinal.1, fun h => absurd h hover,
      fun h => absurd h hover, Or.inl ⟨rfl, hfinal.1⟩⟩
  · rw [heq, hnone]
    exact hbegun
  · obtain ⟨-, hstage, hstep, -⟩ := begun_eq r
    rw [heq, hleft]
    exact hbegun.advanceStepBy 6 hstage (hstep ▸ Step.noConfusion)

/-! ## All of a run -/

theorem lasting_recorded (start : Run K) : Lasting o members built fun qs r =>
    Recorded members o built (start.leftAfter qs) r where
  iterate qs r hinformed _ hstage h := by
    rw [leftAfter_concat]
    exact h.iterate hstage (hinformed.step_ne_done hstage)
  stop qs r _ _ _ h := h.finished rfl rfl Stage.noConfusion
  postrun qs r hinformed hdescends hcreated h := by
    have hstage := postrun_stage hcreated
    apply h.congr
    case hoptions => exact hinformed.postrun.options_eq.trans hinformed.options_eq.symm
    case hevolves =>
      exact (motions_postrun (S := fun _ => True) h.secludes.sound).evolves h.secludes.sound
    case hkeeps => exact keeps_postrun steady_standing r
    case hpending =>
      intro heq
      rw [hstage] at heq
      cases heq
    case hpolish =>
      intro heq
      rw [hstage] at heq
      cases heq

/-- Ideal lengths and members inside rings are what the steps that a run has left make of them. -/
structure InStep (o : Options K) (ws : List (Run K)) (r : Run K) : Prop where
  /-- Up to the exchanges nobody is inside, and no link is stretched. -/
  early : r.stage = .simulating → r.step ≠ .polish →
    exchangesLeft ws = [] ∧ Resting o r.drawing
  /-- Afterwards links at members inside are short, and all others are stretched once. -/
  polish : r.stage = .simulating → r.step = .polish → ∃ w, exchangesLeft ws = [w] ∧
    Resting o w.drawing ∧ Stretched w.drawing r.drawing
  /-- Who is inside has gone there in one pass over the rings, when the exchanges were left. -/
  passed : exchangesLeft ws = [] ∧ Vacant r.drawing ∨ ∃ w, exchangesLeft ws = [w] ∧
    Resting o w.drawing ∧ ∀ c, (r.drawing.ring c).inside =
      ((if o.allowInside then (w.drawing.relocateInside o.effectiveInsideRatio
        o.effectiveSeparation).2 else w.drawing).ring c).inside
  mem_inside_iff : ∀ v c, v ∈ (r.drawing.ring c).inside ↔ (r.drawing.body v).role = .inside c
  allowInside : ∀ c, (r.drawing.ring c).inside ≠ [] → o.allowInside = true
  isInner : ∀ c, ∀ v ∈ (r.drawing.ring c).inside, ∀ e < r.drawing.links.size,
    (r.drawing.link e).Touches v → (r.drawing.link e).isInner = true

theorem Recorded.inStep {g : Graph K} (hbuild : Drawing.build g o = .ok built)
    (hinformed : Informed o members r) (hdescends : Descends built r)
    (h : Recorded members o built ws r) : InStep o ws r := by
  have hmem : ∀ v c, v ∈ (r.drawing.ring c).inside ↔ (r.drawing.body v).role = .inside c :=
    fun v c => (h.secludes.sound.seated.inside_iff v c).symm.trans Role.place_eq_inside_iff
  have hpassed : exchangesLeft ws = [] ∧ Vacant r.drawing ∨ ∃ w, exchangesLeft ws = [w] ∧
      Resting o w.drawing ∧ ∀ c, (r.drawing.ring c).inside =
        ((if o.allowInside then (w.drawing.relocateInside o.effectiveInsideRatio
          o.effectiveSeparation).2 else w.drawing).ring c).inside := by
    refine h.passed.imp_right ?_
    rintro ⟨w, hleft, hw⟩
    have hstep : w.step = .exchange := by
      have hmem : w ∈ exchangesLeft ws := hleft ▸ List.mem_singleton_self w
      simpa using (List.mem_filter.mp hmem).2
    refine ⟨w, hleft, hw.resting, fun c => ?_⟩
    rw [hw.alike.inside_eq, leaveStep_drawing_of_exchange hstep, hw.options_eq]
  constructor
  case early =>
    -- a simulation is never at the end of its steps
    intro hstage hpolish
    refine h.pending hstage ?_
    revert hpolish
    have hdone := hinformed.step_ne_done hstage
    cases hstep : r.step <;> simp_all [Step.rank]
  case polish =>
    intro hstage hstep
    obtain ⟨w, hleft, hstretched⟩ := h.polish hstage hstep
    rcases h.passed with ⟨hnone, -⟩ | ⟨w', hleft', hw⟩
    · rw [hnone] at hleft
      cases hleft
    · rw [hleft] at hleft'
      obtain rfl : w = w' := (List.cons.inj hleft').1
      exact ⟨w, hleft, hw.resting, hstretched⟩
  case passed => exact hpassed
  case mem_inside_iff => exact hmem
  case allowInside =>
    intro c hinside
    rcases hpassed with ⟨-, hvacant⟩ | ⟨w, -, hresting, heq⟩
    · exact absurd (hvacant.ring_inside c) hinside
    · by_contra hnot
      rw [heq, if_neg hnot] at hinside
      exact hinside (hresting.ring_inside c)
  case isInner =>
    intro c v hv e he htouches
    have hinside : (r.drawing.body v).role.isInside = true :=
      Role.isInside_iff.mpr ⟨c, (hmem v c).mp hv⟩
    have hbuilt := Drawing.asBuilt_of_course hbuild hdescends.moves
    exact Drawing.isInner_of_isInside hbuild hbuilt h.secludes hinside he htouches

/-- How ideal lengths and members inside rings follow the steps of a run. -/
structure KeepsStep (o : Options K) (start : Run K) : Prop where
  afterAll : ∀ calls, InStep o (start.leftSteps calls) (start.afterAll calls)
  starts : ∀ calls before q later, start.starts calls = before ++ q :: later →
    InStep o (start.leftAfter before) q

/-- In every state of a run, and where its iterations begin, ideal lengths and members inside
rings are what the steps that it has left make of them. -/
theorem keepsStep [LawfulOne K] {g : Graph K} {o : Options K} {start : Run K}
    (h : create g o = .ok start) : KeepsStep o start := by
  obtain ⟨built, hbuild, rfl⟩ := create_eq_ok h
  have hsound := Drawing.sound_build hbuild
  have hvacant := vacant_build hbuild
  have hprepared : Recorded (fun c => (built.ring c).order) o built
      ((ofDrawing built o).leftAfter []) (ofDrawing built o).prerun := by
    rw [leftAfter_nil]
    exact recorded_prerun (r := ofDrawing built o) rfl hsound hvacant
  have hrecord := (lasting_recorded (ofDrawing built o)).afterAll hbuild hprepared
  constructor
  case afterAll =>
    intro calls
    rcases (hrecord calls).1 with hsame | ⟨hcreated, hrecorded⟩
    · have hleft : (ofDrawing built o).leftSteps calls = [] := by
        rw [leftSteps, hsame]
        rfl
      have hnew : (ofDrawing built o).stage ≠ .simulating := Stage.noConfusion
      rw [hsame, hleft]
      refine Recorded.inStep hbuild (informed_ofDrawing hbuild) (descends_ofDrawing built o) ?_
      exact ⟨rfl, .refl hsound, fun hstage => absurd hstage hnew,
        fun hstage => absurd hstage hnew, Or.inl ⟨rfl, hvacant⟩⟩
    · rw [leftSteps, if_neg hcreated]
      exact hrecorded.holds.inStep hbuild hrecorded.informed hrecorded.descends
  case starts =>
    intro calls before q later heq
    obtain ⟨-, hrecorded⟩ := (hrecord calls).2 before q later heq
    exact hrecorded.holds.inStep hbuild hrecorded.informed hrecorded.descends

/-- The last step of the tangle's run, where links at the member inside are short and all others
stretched, those out of the ring included. -/
theorem keepsStep_tangle : ∃ start : Run ℝ,
    create Drawing.tangle (Drawing.tangledRing 10) = .ok start ∧
      KeepsStep (Drawing.tangledRing 10) start ∧ ∃ calls,
        (start.afterAll calls).stage = .simulating ∧ (start.afterAll calls).step = .polish ∧
          ((start.afterAll calls).drawing.ring 0).inside = [0] := by
  have hcreate := create_of_build (Drawing.build_tangle 10)
  obtain ⟨calls, hpolish⟩ := exists_calls_tangled
  exact ⟨_, hcreate, keepsStep hcreate, .prerun :: calls, hpolish.stage_eq, hpolish.step_eq,
    congrArg (fun s => (s.ring 0).inside) hpolish.skeleton_eq⟩

end Run

end RingLayout
