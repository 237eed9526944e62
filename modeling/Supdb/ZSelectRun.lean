import Supdb.ZSelect

/-!
# The form selector over any run

Whatever the calls are, and whatever the arithmetic answers, the selector keeps its word about
itself and about time.

* `Core` – what the selector decides by between one step and the next; the census, the evidence and
  the rent are functions of it that leave it alone (`evidence_core`, `accumulate_core`, …).
* **`Moves`** – everything a phase can do to the core.  A phase does one of these and nothing else
  (`phaseStep_moves`), so every invariant is a case for each.
* **`Core.Sound`** – the invariant of a selector; **`Kept`** – that of the steps taken, for the
  state they left: a switch binds the next one through `last_switch` and the dwell, the end of a
  trial the next one through `last_trial_end` and the back-off.
* **`selector_sound`** – any run.
-/

namespace Supdb.Zselect

open StorageLib Run

variable {F : Type}

/-! ## The core -/

/-- What a step decides by, and what it may leave changed. -/
structure Core (F : Type) where
  phase : Phase
  now : ℕ
  bias : F
  scansAgainst : Bool
  lastSwitch : Option ℕ
  lastBuildWall : ℕ
  backoff : ℕ
  lastTrialEnd : Option ℕ
  trial : Bool
  sampler : Option (Sampler F)
  generation : ℕ

/-- The core of a selector. -/
def ZSelect.core (s : ZSelect F) : Core F :=
  { phase := s.phase, now := s.now, bias := s.bias, scansAgainst := s.scansAgainst, lastSwitch := s.lastSwitch,
    lastBuildWall := s.lastBuildWall, backoff := s.backoff, lastTrialEnd := s.lastTrialEnd, trial :=
    s.trial.isSome, sampler := s.sampler, generation := s.generation }

namespace Core

/-- The dwell of a core. -/
def dwell (c : Core F) : ℕ := max DWELL_FLOOR (mulTime c.lastBuildWall DWELL_BUILD_FACTOR)

/-- A dwell has passed since the last switch. -/
def Dwelt (c : Core F) : Prop := ∀ t ∈ c.lastSwitch, t + c.dwell ≤ c.now

/-- The back-off has run since the last trial. -/
def BackedOff (c : Core F) : Prop := ∀ t ∈ c.lastTrialEnd, t + c.backoff ≤ c.now

/-- FITS, entered. -/
def toFits (c : Core F) : Core F :=
  { c with phase := .fits, trial := false, sampler := none, backoff := TRIAL_BACKOFF_MIN, lastTrialEnd := none }

end Core

lemma dwell_pos (c : Core F) : 0 < c.dwell := lt_max_of_lt_left (by decide)

/-- `switch_allowed` is what it says. -/
lemma dwelt_of_switchAllowed {s : ZSelect F} (h : s.switchAllowed s.now = true) : s.core.Dwelt := by
  intro t ht
  have hs : s.lastSwitch = some t := ht
  have hd : s.dwell ≤ s.now - t := by
    simpa [ZSelect.switchAllowed, hs] using h
  have hpos : 0 < s.dwell := dwell_pos s.core
  show t + s.dwell ≤ s.now
  omega

/-- `trial_allowed` is what it says, of a back-off that is not zero. -/
lemma backedOff_of_trialAllowed {s : ZSelect F} (h : s.trialAllowed s.now = true)
    (hb : 0 < s.backoff) : s.core.BackedOff := by
  intro t ht
  have hs : s.lastTrialEnd = some t := ht
  have hd : s.backoff ≤ s.now - t := by
    simpa [ZSelect.trialAllowed, hs] using h
  show t + s.backoff ≤ s.now
  omega

/-! ## What leaves the core alone -/

@[simp] lemma recordOutcomes_core (s : ZSelect F) (b : Build F) :
    (s.recordOutcomes b).1.core = s.core := rfl

/-- Building held off is none of the core's. -/
lemma suspend_core (s : ZSelect F) (now : ℕ) (p : Prop) [Decidable p] :
    (if p then s.suspend now else s).core = s.core := by
  split
  · rfl
  · rfl

lemma against_core (s : ZSelect F) (p : Prop) [Decidable p] :
    (if p then { s with scansAgainst := true } else s).core =
      { s.core with scansAgainst := if p then true else s.scansAgainst } := by
  split
  · rfl
  · rfl

variable [Zero F]

@[simp] lemma readS1_core (fl : Floats F) (s : ZSelect F) (now : ℕ) :
    (s.readS1 fl now).core = s.core := by
  unfold ZSelect.readS1
  split
  · rfl
  · rfl

@[simp] lemma evidence_core (fl : Floats F) (s : ZSelect F) (census : Census F) (now : ℕ) :
    (s.evidence fl census now).1.core = s.core := by
  unfold ZSelect.evidence
  dsimp only
  split
  · rfl
  · rfl

@[simp] lemma accumulate_core (fl : Floats F) (s : ZSelect F) (ev : Evidence F) (now : ℕ) :
    (s.accumulate fl ev now).core = s.core := by
  unfold ZSelect.accumulate
  dsimp only
  split
  · rfl
  · split
    · rfl
    · rfl

@[simp] lemma updateE3_core (fl : Floats F) (s : ZSelect F) (now : ℕ) :
    (s.updateE3 fl now).core = s.core := by
  unfold ZSelect.updateE3
  dsimp only
  split
  · rfl
  · split
    · rfl
    · split
      · rfl
      · rfl

@[simp] lemma updateE2_core (fl : Floats F) (s : ZSelect F) (now : ℕ) :
    (s.updateE2 fl now).core = s.core := by
  unfold ZSelect.updateE2
  split
  · rfl
  · rfl

/-- What the raw form took moves the model's error and what is held against it, and nothing else of
the core. -/
lemma noteRaw_core (fl : Floats F) (s : ZSelect F) (reads scans : Option F) :
    ∃ b a, (s.noteRaw fl reads scans).core = { s.core with bias := b, scansAgainst := a } := by
  cases reads with
  | none => exact ⟨s.bias, _, against_core _ _⟩
  | some r => exact ⟨_, _, against_core _ _⟩

/-! ## The invariant -/

namespace Core

/-- SUSPECT, entered. -/
def toSuspect (c : Core F) : Core F :=
  { c with phase := .suspect, trial := false, bias := 0, scansAgainst := false }

/-- **The invariant of a selector.**  A build under way and a trial began a dwell after the last
switch. -/
structure Sound (c : Core F) : Prop where
  trial : c.trial = true ↔ c.phase = .trial
  clear : c.phase = .suspect ∨ c.phase = .building → c.bias = 0 ∧ c.scansAgainst = false
  sampler : ∀ r ∈ c.sampler, r.generation = c.generation
  backoff : TRIAL_BACKOFF_MIN ≤ c.backoff ∧ c.backoff ≤ TRIAL_BACKOFF_MAX
  ended : ∀ t ∈ c.lastTrialEnd, t ≤ c.now
  dwelt : c.phase = .building ∨ c.phase = .trial → c.Dwelt

end Core

/-! ## The moves of a phase -/

/-- What a phase can do to a core, and the event it calls it by. -/
inductive Moves : Core F → Option Event → Core F → Prop
  | stay (c : Core F) (e : Option Event) (he : e = none ∨ e = some .buildsSuspended) : Moves c e c
  | suspect (c : Core F) (h : c.phase = .fits) : Moves c (some .suspect) c.toSuspect
  | relax (c : Core F) (h : c.phase = .suspect) : Moves c (some .relax) c.toFits
  | buildStart (c : Core F) (h : c.phase = .suspect) (dwelt : c.Dwelt) :
      Moves c (some .buildStart) { c with phase := .building }
  | install (c : Core F) (h : c.phase = .building) (wall : ℕ) (b : F) (a : Bool) :
      Moves c (some .install) { c with phase := .compact, lastBuildWall := wall, lastSwitch := some c.now, bias := b,
                                       scansAgainst := a }
  | cancel (c : Core F) (h : c.phase = .building) (e : Event)
      (he : e = .buildCancelled ∨ e = .buildAbandoned) (wall n : ℕ)
      (hn : n = c.backoff ∨ n = min (mulTime c.backoff 2) TRIAL_BACKOFF_MAX) :
      Moves c (some e)
      { c.toSuspect with lastBuildWall := wall, lastSwitch := some c.now, backoff := n }
  | leave (c : Core F) (h : c.phase = .compact) (dwelt : c.Dwelt) (why : Exit) (hw : why ≠ .e2) :
      Moves c (some (.exit why)) { c.toSuspect with lastSwitch := some c.now }
  | fit (c : Core F) (h : c.phase = .trial) :
      Moves c (some (.exit .e2))
      { c.toSuspect with lastSwitch := some c.now, lastTrialEnd := some c.now }
  | trialStart (c : Core F) (h : c.phase = .compact) (dwelt : c.Dwelt) (backedOff : c.BackedOff) :
      Moves c (some .trialStart) { c with phase := .trial, trial := true }
  | trialBack (c : Core F) (h : c.phase = .trial) (b : F) (a : Bool) (n : ℕ)
      (hn : n = c.backoff ∨ n = min (mulTime c.backoff 2) TRIAL_BACKOFF_MAX) :
      Moves c (some .trialBack) { c with phase := .compact, trial := false, lastTrialEnd := some c.now, bias := b,
                                         scansAgainst := a, backoff := n }

lemma backoff_pos {c : Core F} (h : c.Sound) : 0 < c.backoff :=
  lt_of_lt_of_le (by decide) h.backoff.1

/-- What a phase left is a move of the core it began with. -/
def Goes (c : Core F) (r : ZSelect F × Option Event) : Prop := Moves c r.2 r.1.core

lemma Goes.ite {c : Core F} {p : Prop} [Decidable p] {a b : ZSelect F × Option Event}
    (ha : p → Goes c a) (hb : ¬ p → Goes c b) : Goes c (if p then a else b) := by
  split
  · next h => exact ha h
  · next h => exact hb h

lemma Goes.stay {c : Core F} {s : ZSelect F} (h : s.core = c) : Goes c (s, none) := by
  rw [← h]
  exact Moves.stay s.core none (Or.inl rfl)

/-! ### FITS and SUSPECT -/

/-- FITS waits, or becomes SUSPECT. -/
lemma fits_goes (fl : Floats F) {s : ZSelect F} (hp : s.phase = .fits) (tick fresh : Bool) :
    Goes s.core (s.fits fl s.now tick fresh) := by
  refine Goes.ite (fun _ => Goes.stay rfl) (fun _ => ?_)
  cases s.model with
  | none => exact Goes.stay rfl
  | some m =>
      refine Goes.ite (fun _ => ?_) (fun _ => ?_)
      · exact Goes.ite (fun _ => Moves.suspect s.core hp) (fun _ => Goes.stay rfl)
      · exact Goes.ite (fun _ => Moves.suspect s.core hp) (fun _ => Goes.stay rfl)

/-- The build clause asks that a dwell has passed. -/
lemma switchAllowed_of_buildClause (fl : Floats F) {s : ZSelect F} {now : ℕ} {ev : Evidence F}
    (h : s.buildClause fl now ev = true) : s.switchAllowed now = true := by
  unfold ZSelect.buildClause at h
  split at h
  · split at h
    · cases h
    · split at h
      · cases h
      · next hs => simpa using hs
  · cases h

/-- SUSPECT's interval waits, or starts a build. -/
lemma payRent_goes (fl : Floats F) {s : ZSelect F} (hp : s.phase = .suspect) (input : Input F) :
    Goes s.core (s.payRent fl input s.now) := by
  unfold ZSelect.payRent
  obtain ⟨s0, ev, he⟩ : ∃ s0 ev, s.evidence fl input.census s.now = (s0, ev) := ⟨_, _, rfl⟩
  have hc0 : s0.core = s.core := by
    rw [← evidence_core fl s input.census s.now, he]
  rw [he]
  dsimp only
  generalize hs1 : s0.accumulate fl ev s.now = s1
  have hc : s1.core = s.core := by rw [← hs1, accumulate_core, hc0]
  have hnow : s1.now = s.now := congrArg Core.now hc
  refine Goes.ite (fun hb => ?_) (fun _ => Goes.stay hc)
  rw [← hnow] at hb
  rw [← hc]
  refine Moves.buildStart s1.core ((congrArg Core.phase hc).trans hp) ?_
  exact dwelt_of_switchAllowed (switchAllowed_of_buildClause fl hb)

lemma suspect_goes (fl : Floats F) {s : ZSelect F} (hp : s.phase = .suspect) (input : Input F)
    (tick : Bool) : Goes s.core (s.suspect fl input s.now tick) := by
  unfold ZSelect.suspect
  generalize hs1 : (if tick = true then s.countCalm fl else s) = s1
  have hc : s1.core = s.core := by
    rw [← hs1]
    split
    · rfl
    · rfl
  have hp1 : s1.phase = .suspect := (congrArg Core.phase hc).trans hp
  have hnow : s1.now = s.now := congrArg Core.now hc
  rw [← hc, ← hnow]
  exact Goes.ite (fun _ => Moves.relax s1.core hp1) (fun _ => payRent_goes fl hp1 input)

/-! ### BUILDING -/

/-- A build given up. -/
lemma cancel_goes {s : ZSelect F} (hp : s.phase = .building) (why : Cancel) :
    Moves s.core (some (s.cancel s.now why).2) (s.cancel s.now why).1.core := by
  cases why with
  | vanished => exact Moves.cancel s.core hp _ (Or.inl rfl) _ _ (Or.inr rfl)
  | budget => exact Moves.cancel s.core hp _ (Or.inr rfl) _ _ (Or.inl rfl)
  | declined => exact Moves.cancel s.core hp _ (Or.inr rfl) _ _ (Or.inl rfl)

/-- An evidence interval of a build goes on, or gives it up. -/
lemma vanish_goes (fl : Floats F) {s : ZSelect F} (hp : s.phase = .building) (ev : Evidence F) :
    Goes s.core (s.vanish fl ev s.now) :=
  Goes.ite (fun _ => Moves.cancel s.core hp _ (Or.inl rfl) _ _ (Or.inr rfl))
    (fun _ => Goes.stay rfl)

/-- **The form is attached**, and its assertion holds of a core that is clear. -/
lemma install_goes (fl : Floats F) {s : ZSelect F} (hp : s.phase = .building) (hb : s.bias = 0)
    (ha : s.scansAgainst = false) :
    ∃ s', s.install fl s.now = ok (s', .install) ∧ Moves s.core (some .install) s'.core := by
  have attached : ∀ s2 : ZSelect F, s2.core = { s.core with
      phase := .compact, lastBuildWall := s.now - s.buildStarted, lastSwitch := some s.now } →
      ∀ reads scans, Moves s.core (some .install) (s2.noteRaw fl reads scans).core := by
    intro s2 h2 reads scans
    obtain ⟨b, a, hn⟩ := noteRaw_core fl s2 reads scans
    rw [hn, h2]
    exact Moves.install s.core hp _ b a
  unfold ZSelect.install
  dsimp only
  have hassert : fl.isZero s.bias = true ∧ s.scansAgainst = false := ⟨hb ▸ fl.zero_isZero, ha⟩
  rw [assert_eq hassert, ok_bind]
  exact ⟨_, rfl, attached _ rfl _ _⟩

lemma building_goes (fl : Floats F) {s : ZSelect F} (hp : s.phase = .building) (hb : s.bias = 0)
    (ha : s.scansAgainst = false) (input : Input F) (tripped : Bool) :
    ∃ r, s.building fl input s.now tripped = ok r ∧ Goes s.core r := by
  unfold ZSelect.building
  obtain ⟨s1, ev, he⟩ : ∃ s1 ev, s.evidence fl input.census s.now = (s1, ev) := ⟨_, _, rfl⟩
  have hc : s1.core = s.core := by
    rw [← evidence_core fl s input.census s.now, he]
  have hp1 : s1.phase = .building := (congrArg Core.phase hc).trans hp
  have hb1 : s1.bias = 0 := (congrArg Core.bias hc).trans hb
  have ha1 : s1.scansAgainst = false := (congrArg Core.scansAgainst hc).trans ha
  have hnow : s1.now = s.now := congrArg Core.now hc
  rw [he, ← hc, ← hnow]
  dsimp only
  split
  · exact ⟨_, rfl, cancel_goes hp1 .declined⟩
  · split
    · obtain ⟨s2, hi, hm⟩ := install_goes fl hp1 hb1 ha1
      rw [hi, ok_bind]
      refine ⟨_, rfl, ?_⟩
      show Moves s1.core (some .install) (if tripped = true then s2.suspend s1.now else s2).core
      rw [suspend_core]
      exact hm
    · split
      · exact ⟨_, rfl, cancel_goes hp1 .budget⟩
      · split
        · exact ⟨_, rfl, vanish_goes fl hp1 ev⟩
        · exact ⟨_, rfl, Goes.stay rfl⟩

/-! ### COMPACT and its trial -/

lemma watchCompact_core (fl : Floats F) (s : ZSelect F) (input : Input F) (now : ℕ)
    (tick tripped : Bool) : (s.watchCompact fl input now tick tripped).core = s.core := by
  unfold ZSelect.watchCompact
  dsimp only
  rw [updateE2_core]
  split
  · rw [updateE3_core]
    exact suspend_core s now (tripped = true)
  · exact suspend_core s now (tripped = true)

/-- **COMPACT is left** a dwell after the last switch, for SUSPECT, or for a trial once the back-off
has run. -/
lemma leaveCompact_goes (fl : Floats F) {s : ZSelect F} (hp : s.phase = .compact)
    (hb : 0 < s.backoff)
    {s' : ZSelect F} {e : Event} (h : s.leaveCompact fl s.now = some (s', e)) :
    Moves s.core (some e) s'.core := by
  unfold ZSelect.leaveCompact at h
  split at h
  · next hs =>
      have dwelt := dwelt_of_switchAllowed hs
      split at h
      · cases h
        exact Moves.leave s.core hp dwelt .e1 (by decide)
      · split at h
        · cases h
          exact Moves.leave s.core hp dwelt .e3 (by decide)
        · split at h
          · next ht =>
              cases h
              exact Moves.trialStart s.core hp dwelt (backedOff_of_trialAllowed ht.2 hb)
          · cases h
  · cases h

lemma compact_goes (fl : Floats F) {s : ZSelect F} (hp : s.phase = .compact) (hb : 0 < s.backoff)
    (input : Input F)
    (tick tripped : Bool) : Goes s.core (s.compact fl input s.now tick tripped) := by
  unfold ZSelect.compact
  generalize hs1 : s.watchCompact fl input s.now tick tripped = s1
  have hc : s1.core = s.core := by rw [← hs1, watchCompact_core]
  have hp1 : s1.phase = .compact := (congrArg Core.phase hc).trans hp
  have hb1 : 0 < s1.backoff := lt_of_lt_of_eq hb (congrArg Core.backoff hc).symm
  have hnow : s1.now = s.now := congrArg Core.now hc
  rw [← hc, ← hnow]
  dsimp only
  split
  · next s2 e hl => exact leaveCompact_goes fl hp1 hb1 hl
  · refine Moves.stay s1.core _ ?_
    split
    · exact Or.inr rfl
    · exact Or.inl rfl

omit [Zero F] in
lemma trialBack_core (s : ZSelect F) (now : ℕ) (wrong : Bool) :
    (s.trialBack now wrong).1.core = { s.core with
      phase := .compact, trial := false, lastTrialEnd := some now,
      backoff := if wrong then min (mulTime s.core.backoff 2) TRIAL_BACKOFF_MAX else s.core.backoff } := by
  cases wrong with
  | true => rfl
  | false => rfl

/-- **The verdict**: the form is wanted still, or the raw form fits, or there is nothing yet to
decide on. -/
lemma verdict_goes (fl : Floats F) {s : ZSelect F} (hp : s.phase = .trial) (ev : Evidence F)
    (t : Trial) (since : ℕ) :
    Goes { s.core with trial := true } (s.verdict fl ev t since s.now) := by
  have back : ∀ (s2 : ZSelect F) b a wrong, s2.core = { s.core with bias := b, scansAgainst := a } →
      Goes { s.core with trial := true }
      ((s2.trialBack s.now wrong).1, some (s2.trialBack s.now wrong).2) := by
    intro s2 b a wrong h2
    show Moves _ (some .trialBack) (s2.trialBack s.now wrong).1.core
    rw [trialBack_core, h2]
    refine Moves.trialBack { s.core with trial := true } hp b a _ ?_
    cases wrong with
    | true => exact Or.inr rfl
    | false => exact Or.inl rfl
  unfold ZSelect.verdict
  generalize ZSelect.pool ev t = t'
  refine Goes.ite (fun _ => ?_) (fun _ => Goes.ite (fun _ => ?_) (fun _ => Goes.stay rfl))
  · dsimp only
    split
    · obtain ⟨b, a, hn⟩ := noteRaw_core fl s _ _
      exact back _ b a true hn
    · exact Moves.fit { s.core with trial := true } hp
  · exact back s s.bias s.scansAgainst false rfl

/-- A trial recorded goes on, or is judged. -/
lemma trialStep_goes (fl : Floats F) {s : ZSelect F} (hp : s.phase = .trial)
    (ht : s.trial.isSome = true) (input : Input F) : Goes s.core (s.trialStep fl input s.now) := by
  unfold ZSelect.trialStep
  obtain ⟨s1, ev, he⟩ : ∃ s1 ev, s.evidence fl input.census s.now = (s1, ev) := ⟨_, _, rfl⟩
  have hc : s1.core = s.core := by
    rw [← evidence_core fl s input.census s.now, he]
  have hp1 : s1.phase = .trial := (congrArg Core.phase hc).trans hp
  have ht1 : s1.trial.isSome = true := (congrArg Core.trial hc).trans ht
  have hnow : s1.now = s.now := congrArg Core.now hc
  have hrec : ({ s1.core with trial := true } : Core F) = s1.core := by
    rw [← ht1]
    rfl
  rw [he, ← hc, ← hnow]
  dsimp only
  split
  · next hnone => simp [hnone] at ht1
  · split
    · exact Goes.stay hrec
    · next t _ since _ =>
        rw [← hrec]
        exact verdict_goes fl (s := { s1 with trial := none }) hp1 ev _ since

/-- **A phase makes a move and nothing else**, and its assertion holds. -/
theorem phaseStep_goes (fl : Floats F) {s : ZSelect F} (hs : s.core.Sound) (input : Input F)
    (tick fresh tripped : Bool) :
    ∃ r, s.phaseStep fl input s.now tick fresh tripped = ok r ∧ Goes s.core r := by
  unfold ZSelect.phaseStep
  split
  · next hp => exact ⟨_, rfl, fits_goes fl hp tick fresh⟩
  · next hp => exact ⟨_, rfl, suspect_goes fl hp input tick⟩
  · next hp =>
      obtain ⟨hb, ha⟩ := hs.clear (Or.inr hp)
      exact building_goes fl hp hb ha input tripped
  · next hp => exact ⟨_, rfl, compact_goes fl hp (backoff_pos hs) input tick tripped⟩
  · next hp => exact ⟨_, rfl, trialStep_goes fl hp (hs.trial.mpr hp) input⟩

/-! ## What a move keeps -/

lemma backoff_min_le : TRIAL_BACKOFF_MIN ≤ TRIAL_BACKOFF_MAX := by decide

lemma double_bounds {n : ℕ} (h : TRIAL_BACKOFF_MIN ≤ n ∧ n ≤ TRIAL_BACKOFF_MAX) :
    n ≤ min (mulTime n 2) TRIAL_BACKOFF_MAX ∧
    min (mulTime n 2) TRIAL_BACKOFF_MAX ≤ TRIAL_BACKOFF_MAX := by
  have hmax : TRIAL_BACKOFF_MAX ≤ DURATION_MAX := by decide
  unfold mulTime
  omega

/-- The back-off never shrinks but where the store is FITS. -/
lemma backoff_le {c : Core F} (hs : c.Sound) {n : ℕ}
    (hn : n = c.backoff ∨ n = min (mulTime c.backoff 2) TRIAL_BACKOFF_MAX) :
    c.backoff ≤ n ∧ n ≤ TRIAL_BACKOFF_MAX := by
  rcases hn with rfl | rfl
  · exact ⟨le_refl _, hs.backoff.2⟩
  · exact double_bounds hs.backoff

lemma Core.Sound.no_trial {c : Core F} (hs : c.Sound) (h : c.phase ≠ .trial) : c.trial = false := by
  rw [← Bool.not_eq_true]
  exact fun ht => h (hs.trial.mp ht)

/-- **A move keeps the invariant.** -/
theorem Moves.sound {c c' : Core F} {e : Option Event} (h : Moves c e c') (hs : c.Sound) :
    c'.Sound := by
  cases h with
  | stay e he => exact hs
  | suspect h =>
      exact ⟨by simp [Core.toSuspect], fun _ => ⟨rfl, rfl⟩, hs.sampler, hs.backoff, hs.ended, by simp [Core.toSuspect]⟩
  | relax h =>
      exact ⟨by simp [Core.toFits], by simp [Core.toFits], by simp [Core.toFits], ⟨le_refl _,
        backoff_min_le⟩, by simp [Core.toFits], by simp [Core.toFits]⟩
  | buildStart h dwelt =>
      have ht := hs.no_trial (by simp [h])
      exact ⟨by simp [ht], fun _ => hs.clear (Or.inl h), hs.sampler, hs.backoff, hs.ended, fun _ => dwelt⟩
  | install h wall b a =>
      have ht := hs.no_trial (by simp [h])
      exact ⟨by simp [ht], by simp, hs.sampler, hs.backoff, hs.ended, by simp⟩
  | cancel h e he wall n hn =>
      obtain ⟨hle, hmax⟩ := backoff_le hs hn
      exact ⟨by simp [Core.toSuspect], fun _ => ⟨rfl, rfl⟩, hs.sampler, ⟨le_trans hs.backoff.1 hle,
        hmax⟩, hs.ended, by simp [Core.toSuspect]⟩
  | leave h dwelt why hw =>
      exact ⟨by simp [Core.toSuspect], fun _ => ⟨rfl, rfl⟩, hs.sampler, hs.backoff, hs.ended, by simp [Core.toSuspect]⟩
  | fit h =>
      exact ⟨by simp [Core.toSuspect], fun _ => ⟨rfl,
        rfl⟩, hs.sampler, hs.backoff, by simp [Core.toSuspect], by simp [Core.toSuspect]⟩
  | trialStart h dwelt backedOff =>
      exact ⟨by simp, by simp, hs.sampler, hs.backoff, hs.ended, fun _ => dwelt⟩
  | trialBack h b a n hn =>
      obtain ⟨hle, hmax⟩ := backoff_le hs hn
      exact ⟨by simp, by simp, hs.sampler, ⟨le_trans hs.backoff.1 hle, hmax⟩, by simp, by simp⟩

/-! ## A step -/

/-- What a step reads before its phase: a clock that does not go back, and a sampler of the
generation it is told. -/
def Reads (c c' : Core F) : Prop :=
  ∃ now g o, c.now ≤ now ∧ (∀ r ∈ o, Sampler.generation r = g) ∧
    c' = { c with now := now, generation := g, sampler := o }

/-- What a step forgets after its phase: at most the sampler's reading. -/
def Forgets (c c' : Core F) : Prop := ∃ o, (o = none ∨ o = c.sampler) ∧ c' = { c with sampler := o }

omit [Zero F] in
lemma absorbGeneration_core (s : ZSelect F) (input : Input F) (now : ℕ) :
    ∃ o, (∀ r ∈ o, Sampler.generation r = input.generation) ∧
      (s.absorbGeneration input now).core
      = { s.core with generation := input.generation, sampler := o } := by
  unfold ZSelect.absorbGeneration
  generalize hs1 : (if s.generation ≠ input.generation ∨ input.rewriting = true then
    { s with genChangedAt := now } else s) = s1
  have hc : s1.core = s.core := by
    rw [← hs1]
    split
    · rfl
    · rfl
  dsimp only
  rw [← hc]
  split
  · exact ⟨none, by simp, rfl⟩
  · next hold =>
      refine ⟨s1.sampler, ?_, rfl⟩
      intro r hr
      by_contra hne
      exact hold (by simpa [Option.mem_def.mp hr] using hne)

lemma absorbSampler_core (fl : Floats F) (s : ZSelect F) (input : Input F)
    (h : ∀ r ∈ s.sampler, r.generation = s.generation) :
    ∃ o, (∀ r ∈ o, Sampler.generation r = s.generation) ∧
      (s.absorbSampler fl input).core = { s.core with sampler := o } := by
  unfold ZSelect.absorbSampler
  split
  · next r _ =>
      split
      · next hr =>
          refine ⟨some r, ?_, rfl⟩
          simpa using hr
      · exact ⟨s.sampler, h, rfl⟩
  · exact ⟨s.sampler, h, rfl⟩

lemma absorbCensus_core (fl : Floats F) (s : ZSelect F) (input : Input F)
    (h : ∀ r ∈ s.sampler, r.generation = s.generation) :
    ∃ o, (∀ r ∈ o, Sampler.generation r = s.generation) ∧
      (s.absorbCensus fl input).core = { s.core with sampler := o } := by
  -- What is kept of the costs and the threads is none of the core's.
  have kept : ∀ m n, ∃ o, (∀ r ∈ o, Sampler.generation r = s.generation) ∧
      (({ s with measured := m, threads := n } : ZSelect F).absorbSampler fl input).core =
        { s.core with sampler := o } :=
    fun m n => absorbSampler_core fl { s with measured := m, threads := n } input h
  exact kept _ _

lemma absorbModel_core (fl : Floats F) (s : ZSelect F) (input : Input F) (now : ℕ) :
    (s.absorbModel fl input now).1.core = s.core := by
  unfold ZSelect.absorbModel
  split
  · rfl
  · dsimp only
    split
    · rfl
    · rfl

/-- `absorb`, of the core: the generation, and a sampler of it. -/
lemma absorb_core (fl : Floats F) (s : ZSelect F) (input : Input F) (now : ℕ) :
    ∃ o, (∀ r ∈ o, Sampler.generation r = input.generation) ∧
      (s.absorb fl input now).1.core
      = { s.core with generation := input.generation, sampler := o } := by
  obtain ⟨o, ho, hc⟩ := absorbGeneration_core s input now
  unfold ZSelect.absorb
  generalize s.absorbGeneration input now = s1 at hc ⊢
  have hgen : s1.generation = input.generation := congrArg Core.generation hc
  have hsam : s1.sampler = o := congrArg Core.sampler hc
  rw [absorbModel_core]
  split
  · obtain ⟨o', ho', hc'⟩ := absorbCensus_core fl s1 input (by rwa [hsam, hgen])
    rw [hgen] at ho'
    exact ⟨o', ho', by rw [hc', hc]⟩
  · exact ⟨o, ho, hc⟩

omit [Zero F] in
lemma retire_core (s : ZSelect F) (now : ℕ) : Forgets s.core (s.retire now).1.core := by
  unfold ZSelect.retire
  split
  · exact ⟨none, Or.inl rfl, rfl⟩
  · exact ⟨s.sampler, Or.inr rfl, rfl⟩

omit [Zero F] in
lemma Forgets.trans {a b c : Core F} (h : Forgets a b) (h' : Forgets b c) : Forgets a c := by
  obtain ⟨o, ho, rfl⟩ := h
  obtain ⟨o', ho', rfl⟩ := h'
  refine ⟨o', ?_, rfl⟩
  rcases ho' with rfl | rfl
  · exact Or.inl rfl
  · exact ho

lemma Reads.sound {c c' : Core F} (h : Reads c c') (hs : c.Sound) : c'.Sound := by
  obtain ⟨now, g, o, hnow, ho, rfl⟩ := h
  refine ⟨hs.trial, hs.clear, ho, hs.backoff, ?_, ?_⟩
  · exact fun t ht => le_trans (hs.ended t ht) hnow
  · exact fun hp t ht => le_trans (hs.dwelt hp t ht) hnow

lemma Forgets.sound {c c' : Core F} (h : Forgets c c') (hs : c.Sound) : c'.Sound := by
  obtain ⟨o, ho, rfl⟩ := h
  refine ⟨hs.trial, hs.clear, ?_, hs.backoff, hs.ended, hs.dwelt⟩
  rcases ho with rfl | rfl
  · simp
  · exact hs.sampler

/-- What a step begins its phase with. -/
lemma readInput_core (fl : Floats F) (s : ZSelect F) (input : Input F) {now : ℕ} (h : s.now ≤ now) :
    (s.readInput fl input now).1.now = now ∧ Reads s.core (s.readInput fl input now).1.core := by
  have read : ∀ b, (({ s with now := now, readsNow := b } : ZSelect F).absorb fl input now).1.now
      = now ∧
      Reads s.core
      (({ s with now := now, readsNow := b } : ZSelect F).absorb fl input now).1.core := by
    intro b
    obtain ⟨o, ho, hc⟩ := absorb_core fl { s with now := now, readsNow := b } input now
    exact ⟨congrArg Core.now hc, now, input.generation, o, h, ho, hc⟩
  have ticked : ∀ (s1 : ZSelect F) (tick : Bool),
    (if tick = true then s1.readS1 fl now else s1).core = s1.core := by
    intro s1 tick
    split
    · exact readS1_core fl s1 now
    · rfl
  unfold ZSelect.readInput
  dsimp only
  rw [recordOutcomes_core, ticked]
  refine ⟨?_, (read _).2⟩
  exact (congrArg Core.now (ticked _ _)).trans (read _).1

omit [Zero F] in
/-- What follows the phase forgets a sampler's reading at most. -/
lemma settle_core (s : ZSelect F) (was : Phase) (tripped : Bool) (now : ℕ) :
    Forgets s.core (s.settle was tripped now).1.core := by
  unfold ZSelect.settle
  generalize hs1 : (if tripped = true ∧ was ≠ .building ∧ was ≠ .compact then s.suspend now else s)
    = s1
  have hc : s1.core = s.core := by rw [← hs1, suspend_core]
  have hr := retire_core s1 now
  dsimp only
  rw [← hc]
  generalize (s1.retire now).1 = s2 at hr ⊢
  refine hr.trans ?_
  split
  · exact ⟨none, Or.inl rfl, rfl⟩
  · exact ⟨s2.sampler, Or.inr rfl, rfl⟩

/-- **A step**: what is read, one move, and what is forgotten. -/
theorem step_goes (fl : Floats F) {s : ZSelect F} (hs : s.core.Sound) (input : Input F) :
    ∃ s' d c c', s.step fl input = ok (s', d) ∧ Reads s.core c ∧ Moves c d.event c' ∧
      Forgets c' s'.core ∧ d.phase = s'.phase ∧ d.gate = s'.phase.gate := by
  unfold ZSelect.step
  dsimp only
  obtain ⟨hnow, hreads⟩ := readInput_core fl s input (le_max_right input.now s.now)
  generalize s.readInput fl input (max input.now s.now) = r at hnow hreads ⊢
  obtain ⟨s1, tick, tripped⟩ := r
  dsimp only at hnow hreads ⊢
  rw [← hnow]
  generalize input.model.any _ = fresh
  obtain ⟨⟨s2, e⟩, hstep, hgoes⟩ := phaseStep_goes fl (hreads.sound hs) input tick fresh tripped
  rw [hstep, ok_bind]
  exact ⟨_, _, s1.core, s2.core, rfl, hreads, hgoes, settle_core s2 s1.phase tripped s1.now,
    rfl, rfl⟩

/-! ## Any run -/

/-- A step that switched. -/
def Taken.switched (t : Taken F) : Prop := t.decision.event.any Event.isSwitch = true

/-- A step that ended a trial. -/
def Taken.endedTrial (t : Taken F) : Prop := t.before.phase = .trial ∧ t.after.phase ≠ .trial

/-- A step that started a trial. -/
def Taken.startedTrial (t : Taken F) : Prop := t.before.phase ≠ .trial ∧ t.after.phase = .trial

/-- A step at which the store came to fit. -/
def Taken.cameToFit (t : Taken F) : Prop := t.before.phase ≠ .fits ∧ t.after.phase = .fits

/-- The second step follows the first by the dwell the first left in force. -/
def Spaced (a b : Taken F) : Prop := a.switched → b.switched →
    a.after.now + a.after.dwell ≤ b.after.now

/-- **What the steps taken have left in a core.** -/
structure Kept (hist : List (Taken F)) (c : Core F) : Prop where
  switches : ∀ t ∈ hist, t.switched → ∃ l, c.lastSwitch = some l ∧
    t.after.now + t.after.dwell ≤ l + c.dwell
  trials : ∀ pre t mid, hist = pre ++ t :: mid → t.endedTrial → (∀ m ∈ mid, ¬ m.cameToFit) →
    ∃ l, c.lastTrialEnd = some l ∧ t.after.now ≤ l ∧ t.after.backoff ≤ c.backoff

omit [Zero F] in
/-- Neither what is read nor what is forgotten is of the past. -/
lemma Kept.congr {hist : List (Taken F)} {c c' : Core F} (h : Kept hist c)
    (hsw : c'.lastSwitch = c.lastSwitch) (hw : c'.lastBuildWall = c.lastBuildWall)
    (ht : c'.lastTrialEnd = c.lastTrialEnd) (hb : c'.backoff = c.backoff) : Kept hist c' := by
  have hd : c'.dwell = c.dwell := by simp only [Core.dwell, hw]
  refine ⟨?_, ?_⟩
  · rw [hsw, hd]
    exact h.switches
  · rw [ht, hb]
    exact h.trials

/-- **A switch is a dwell after the last one**, and begins a dwell of its own; any other move leaves
both as they were. -/
lemma Moves.switch {c c' : Core F} {e : Option Event} (h : Moves c e c') (hs : c.Sound) :
    (e.any Event.isSwitch = true ∧ c.Dwelt ∧ c'.lastSwitch = some c.now) ∨
      (e.any Event.isSwitch = false ∧ c'.lastSwitch = c.lastSwitch ∧ c'.lastBuildWall
      = c.lastBuildWall) := by
  cases h with
  | stay e he =>
      refine Or.inr ⟨?_, rfl, rfl⟩
      rcases he with rfl | rfl
      · rfl
      · rfl
  | suspect h => exact Or.inr ⟨rfl, rfl, rfl⟩
  | relax h => exact Or.inr ⟨rfl, rfl, rfl⟩
  | buildStart h dwelt => exact Or.inr ⟨rfl, rfl, rfl⟩
  | install h wall b a => exact Or.inl ⟨rfl, hs.dwelt (Or.inl h), rfl⟩
  | cancel h e he wall n hn =>
      refine Or.inl ⟨?_, hs.dwelt (Or.inl h), rfl⟩
      rcases he with rfl | rfl
      · rfl
      · rfl
  | leave h dwelt why hw => exact Or.inl ⟨rfl, dwelt, rfl⟩
  | fit h => exact Or.inl ⟨rfl, hs.dwelt (Or.inr h), rfl⟩
  | trialStart h dwelt backedOff => exact Or.inr ⟨rfl, rfl, rfl⟩
  | trialBack h b a n hn => exact Or.inr ⟨rfl, rfl, rfl⟩

/-- No move turns the clock. -/
lemma Moves.now_eq {c c' : Core F} {e : Option Event} (h : Moves c e c') : c'.now = c.now := by
  cases h <;> rfl

/-- A trial that ends is filed as the last. -/
lemma Moves.endedTrial {c c' : Core F} {e : Option Event} (h : Moves c e c') (hc : c.phase = .trial)
    (hc' : c'.phase ≠ .trial) : c'.lastTrialEnd = some c.now := by
  cases h with
  | stay e he => exact absurd hc hc'
  | suspect h => simp [hc] at h
  | relax h => simp [hc] at h
  | buildStart h dwelt => simp [hc] at h
  | install h wall b a => simp [hc] at h
  | cancel h e he wall n hn => simp [hc] at h
  | leave h dwelt why hw => simp [hc] at h
  | fit h => rfl
  | trialStart h dwelt backedOff => simp [hc] at h
  | trialBack h b a n hn => rfl

/-- A trial that starts has waited out the back-off. -/
lemma Moves.startedTrial {c c' : Core F} {e : Option Event} (h : Moves c e c')
    (hc : c.phase ≠ .trial) (hc' : c'.phase = .trial) : c.BackedOff ∧ c'.backoff = c.backoff := by
  cases h with
  | stay e he => exact absurd hc' hc
  | suspect h => cases hc'
  | relax h => cases hc'
  | buildStart h dwelt => cases hc'
  | install h wall b a => cases hc'
  | cancel h e he wall n hn => cases hc'
  | leave h dwelt why hw => cases hc'
  | fit h => cases hc'
  | trialStart h dwelt backedOff => exact ⟨backedOff, rfl⟩
  | trialBack h b a n hn => cases hc'

/-- Short of FITS, the end of the last trial is kept and the back-off does not shrink. -/
lemma Moves.keepsTrial {c c' : Core F} {e : Option Event} (h : Moves c e c') (hs : c.Sound)
    (hfit : ¬ (c.phase ≠ .fits ∧ c'.phase = .fits)) :
    (c'.lastTrialEnd = c.lastTrialEnd ∨ c'.lastTrialEnd = some c.now) ∧ c.backoff ≤ c'.backoff := by
  cases h with
  | stay e he => exact ⟨Or.inl rfl, le_refl _⟩
  | suspect h => exact ⟨Or.inl rfl, le_refl _⟩
  | relax h => exact absurd ⟨by simp [h], rfl⟩ hfit
  | buildStart h dwelt => exact ⟨Or.inl rfl, le_refl _⟩
  | install h wall b a => exact ⟨Or.inl rfl, le_refl _⟩
  | cancel h e he wall n hn => exact ⟨Or.inl rfl, (backoff_le hs hn).1⟩
  | leave h dwelt why hw => exact ⟨Or.inl rfl, le_refl _⟩
  | fit h => exact ⟨Or.inr rfl, le_refl _⟩
  | trialStart h dwelt backedOff => exact ⟨Or.inl rfl, le_refl _⟩
  | trialBack h b a n hn => exact ⟨Or.inr rfl, (backoff_le hs hn).1⟩

omit [Zero F] in
/-- A history with one more step, cut at a step. -/
lemma cut_append {hist pre mid : List (Taken F)} {t x : Taken F}
    (h : hist ++ [x] = pre ++ t :: mid) :
    (mid = [] ∧ t = x ∧ pre = hist) ∨ ∃ mid', mid = mid' ++ [x] ∧ hist = pre ++ t :: mid' := by
  rcases List.eq_nil_or_concat mid with rfl | ⟨mid', y, rfl⟩
  · obtain ⟨rfl, hx⟩ := List.append_inj' h rfl
    exact Or.inl ⟨rfl, (List.cons.inj hx).1.symm, rfl⟩
  · rw [List.concat_eq_append, ← List.cons_append, ← List.append_assoc] at h
    obtain ⟨rfl, hx⟩ := List.append_inj' h rfl
    exact Or.inr ⟨mid', by rw [List.concat_eq_append, (List.cons.inj hx).1], rfl⟩

/-- **A switch waits out the dwell of every switch before it.** -/
lemma Kept.spaced {hist : List (Taken F)} {c c' : Core F} {t x : Taken F} (hk : Kept hist c)
    (hs : c.Sound)
    (hm : Moves c x.decision.event c') (ht : t ∈ hist) (hnow : x.after.now = c.now) :
    Spaced t x := by
  intro hsw hx
  obtain ⟨l, hl, hle⟩ := hk.switches t ht hsw
  rcases hm.switch hs with ⟨_, dwelt, _⟩ | ⟨hno, _⟩
  · rw [hnow]
    exact le_trans hle (dwelt l hl)
  · exact absurd hx (by simp [Taken.switched, hno])

/-- **The step kept.** -/
lemma Kept.append {hist : List (Taken F)} {c c' : Core F} {x : Taken F} (hk : Kept hist c)
    (hs : c.Sound) (hm : Moves c x.decision.event c') (hp : x.before.phase = c.phase)
    (hp' : x.after.phase = c'.phase) (hnow : x.after.now = c.now) (hd : x.after.dwell = c'.dwell)
    (hb : x.after.backoff = c'.backoff) : Kept (hist ++ [x]) c' := by
  refine ⟨?_, ?_⟩
  · intro t ht hsw
    rcases hm.switch hs with ⟨_, dwelt, hl'⟩ | ⟨hno, hl', hw⟩
    · refine ⟨c.now, hl', ?_⟩
      rcases List.mem_append.mp ht with ht | ht
      · obtain ⟨l, hl, hle⟩ := hk.switches t ht hsw
        have := dwelt l hl
        omega
      · rw [List.mem_singleton.mp ht, hnow, hd]
    · have hd' : c'.dwell = c.dwell := by simp only [Core.dwell, hw]
      rcases List.mem_append.mp ht with ht | ht
      · rw [hl', hd']
        exact hk.switches t ht hsw
      · rw [List.mem_singleton.mp ht] at hsw
        exact absurd hsw (by simp [Taken.switched, hno])
  · intro pre t mid h hend hmid
    rcases cut_append h with ⟨rfl, rfl, rfl⟩ | ⟨mid', rfl, rfl⟩
    · refine ⟨c.now, hm.endedTrial (hp ▸ hend.1) (hp' ▸ hend.2), le_of_eq hnow, le_of_eq hb⟩
    · have hfit : ¬ x.cameToFit := hmid x (by simp)
      rw [Taken.cameToFit, hp, hp'] at hfit
      obtain ⟨hlast, hle⟩ := hm.keepsTrial hs hfit
      obtain ⟨l, hl, htl, hbl⟩ := hk.trials pre t mid' rfl hend (fun m hm' => hmid m (by simp [hm']))
      rcases hlast with hlast | hlast
      · exact ⟨l, hlast.trans hl, htl, le_trans hbl hle⟩
      · exact ⟨c.now, hlast, le_trans htl (hs.ended l hl), le_trans hbl hle⟩

/-- **A trial waits out the back-off since the last one ended**, unless the store came to fit in
between. -/
lemma Kept.tried {hist pre mid : List (Taken F)} {c c' : Core F} {t x : Taken F} (hk : Kept hist c)
    (hm : Moves c x.decision.event c') (hp : x.before.phase = c.phase)
    (hp' : x.after.phase = c'.phase) (hnow : x.after.now = c.now)
    (hb : x.after.backoff = c'.backoff) (h : hist = pre ++ t :: mid) (hend : t.endedTrial)
    (hmid : ∀ m ∈ mid, ¬ m.cameToFit) (hstart : x.startedTrial) :
    t.after.backoff ≤ x.after.backoff ∧ t.after.now + x.after.backoff ≤ x.after.now := by
  obtain ⟨backedOff, hb'⟩ := hm.startedTrial (hp ▸ hstart.1) (hp' ▸ hstart.2)
  obtain ⟨l, hl, htl, hbl⟩ := hk.trials pre t mid h hend hmid
  have := backedOff l hl
  rw [hb, hb', hnow]
  omega

/-- A trial follows the end of the last one by the back-off, unless the store came to fit in
between. -/
def TrialsSpaced (hist : List (Taken F)) : Prop :=
  ∀ pre t mid x post, hist = pre ++ t :: mid ++ x :: post → t.endedTrial → x.startedTrial →
    (∀ m ∈ mid, ¬ m.cameToFit) →
    t.after.backoff ≤ x.after.backoff ∧ t.after.now + x.after.backoff ≤ x.after.now

/-- What a selector's fields say of each other between two steps. -/
structure ZSelect.Sound (s : ZSelect F) : Prop where
  trial : s.trial.isSome = true ↔ s.phase = .trial
  clear : s.phase = .suspect ∨ s.phase = .building → s.bias = 0 ∧ s.scansAgainst = false
  sampler : ∀ r ∈ s.sampler, r.generation = s.generation
  backoff : TRIAL_BACKOFF_MIN ≤ s.backoff ∧ s.backoff ≤ TRIAL_BACKOFF_MAX

/-- A selector and its history, as every run leaves them. -/
structure Reached (st : ZSelect F × List (Taken F)) : Prop where
  sound : st.1.core.Sound
  kept : Kept st.2 st.1.core
  gates : ∀ t ∈ st.2, t.decision.phase = t.after.phase ∧ t.decision.gate = t.after.phase.gate
  spaced : st.2.Pairwise Spaced
  tried : TrialsSpaced st.2

lemma reached_new : Reached (ZSelect.new, ([] : List (Taken F))) := by
  refine ⟨?_, ⟨by simp, by simp⟩, by simp, List.Pairwise.nil, ?_⟩
  · exact ⟨by simp [ZSelect.core, ZSelect.new], fun _ => ⟨rfl, rfl⟩, by simp [ZSelect.core,
      ZSelect.new],
      ⟨le_refl _, backoff_min_le⟩, by simp [ZSelect.core, ZSelect.new], by simp [ZSelect.core,
      ZSelect.new]⟩
  · intro pre t mid x post h
    simp at h

/-- **A step keeps a run.** -/
lemma step_reached (fl : Floats F) {st : ZSelect F × List (Taken F)} (h : Reached st)
    (input : Input F) : ∃ st', ZSelect.call st (.step fl input) = ok st' ∧ Reached st' := by
  obtain ⟨s, hist⟩ := st
  obtain ⟨s', d, c, c', hstep, hreads, hm, hforgets, hphase, hgate⟩ := step_goes fl h.sound input
  have hs : c.Sound := hreads.sound h.sound
  have hs' : s'.core.Sound := hforgets.sound (hm.sound hs)
  obtain ⟨now, g, o, _, _, rfl⟩ := hreads
  have hk : Kept hist { s.core with now := now, generation := g, sampler := o } :=
    h.kept.congr rfl rfl rfl rfl
  obtain ⟨o', _, hc⟩ := hforgets
  -- What the step left, by the move it made.
  have hafter : s'.phase = c'.phase := congrArg Core.phase hc
  have hnow : s'.now = now := (congrArg Core.now hc).trans hm.now_eq
  have hdwell : s'.dwell = c'.dwell := congrArg Core.dwell hc
  have hback : s'.backoff = c'.backoff := congrArg Core.backoff hc
  refine ⟨(s', hist ++ [⟨s, s', d⟩]), by rw [ZSelect.call, hstep, ok_bind], hs', ?_, ?_, ?_, ?_⟩
  · have hk' : Kept (hist ++ [⟨s, s', d⟩]) c' := hk.append hs hm rfl hafter hnow hdwell hback
    rw [hc]
    exact hk'.congr rfl rfl rfl rfl
  · intro t ht
    rcases List.mem_append.mp ht with ht | ht
    · exact h.gates t ht
    · rw [List.mem_singleton.mp ht]
      exact ⟨hphase, hgate⟩
  · rw [List.pairwise_append]
    refine ⟨h.spaced, List.pairwise_singleton _ _, ?_⟩
    intro t ht x hx
    rw [List.mem_singleton.mp hx]
    exact hk.spaced hs hm ht hnow
  · intro pre t mid x post hcut hend hstart hmid
    rw [List.append_assoc, List.cons_append] at hcut
    rcases cut_append hcut with ⟨hnil, _, _⟩ | ⟨mid', hmid', hhist⟩
    · simp at hnil
    · rcases List.eq_nil_or_concat post with rfl | ⟨post', y, rfl⟩
      · obtain ⟨rfl, hx⟩ := List.append_inj' hmid' rfl
        rw [(List.cons.inj hx).1] at hstart ⊢
        exact hk.tried hm rfl hafter hnow hback hhist hend hmid hstart
      · rw [List.concat_eq_append, ← List.cons_append, ← List.append_assoc] at hmid'
        obtain ⟨rfl, _⟩ := List.append_inj' hmid' rfl
        exact h.tried pre t mid x post' (by rw [hhist, List.append_assoc, List.cons_append]) hend hstart hmid

/-- A setting is none of the core's. -/
lemma call_reached {st : ZSelect F × List (Taken F)} (h : Reached st) (call : Call F) :
    ∃ st', ZSelect.call st call = ok st' ∧ Reached st' := by
  cases call with
  | step fl input => exact step_reached fl h input
  | setEager on => exact ⟨_, rfl, h.sound, h.kept, h.gates, h.spaced, h.tried⟩
  | setAttachEager on => exact ⟨_, rfl, h.sound, h.kept, h.gates, h.spaced, h.tried⟩
  | setSuspectAtReading on => exact ⟨_, rfl, h.sound, h.kept, h.gates, h.spaced, h.tried⟩
  | setAttachOnReads on => exact ⟨_, rfl, h.sound, h.kept, h.gates, h.spaced, h.tried⟩

/-- Calls one after another keep a run. -/
lemma foldl_reached (calls : List (Call F)) {st : ZSelect F × List (Taken F)} (h : Reached st) :
    ∃ st', calls.foldlM ZSelect.call st = ok st' ∧ Reached st' := by
  induction calls generalizing st with
  | nil => exact ⟨st, rfl, h⟩
  | cons call calls ih =>
      obtain ⟨st1, h1, hr1⟩ := call_reached h call
      obtain ⟨st', h', hr'⟩ := ih hr1
      exact ⟨st', by rw [List.foldlM_cons, h1, ok_bind, h'], hr'⟩

/-- **The selector keeps its word on every run.**  Whatever it is called with and whatever its
arithmetic answers, no assertion fails and its fields agree (`ZSelect.Sound`); every gate published
is the phase's; a switch comes no sooner after another than the dwell that one left in force; and a
trial no sooner after the end of one than the back-off, which has not shrunk, unless the store came
to fit in between. -/
theorem selector_sound (calls : List (Call F)) :
    ∃ s hist, ZSelect.run calls = ok (s, hist) ∧ ZSelect.Sound s ∧
      (∀ t ∈ hist, t.decision.phase = t.after.phase ∧ t.decision.gate = t.after.phase.gate) ∧
      hist.Pairwise Spaced ∧ TrialsSpaced hist := by
  obtain ⟨⟨s, hist⟩, hrun, h⟩ := foldl_reached calls reached_new
  have hs : ZSelect.Sound s := ⟨h.sound.trial, h.sound.clear, h.sound.sampler, h.sound.backoff⟩
  exact ⟨s, hist, hrun, hs, h.gates, h.spaced, h.tried⟩

end Supdb.Zselect
