import Supdb.Lib.Trap

/-!
# The form selector

Which form serves a partition is chosen by a machine of five phases.  FITS reads a model of the
cache and nothing else; SUSPECT counts faults until the price of a form is paid; BUILDING waits for
the form; COMPACT serves it, and tries the raw form again in a TRIAL now and then.  It is stepped
with what the caller knows: a clock, the model, a sampler's reading, a census of the reads and a
report of the builds.

Floating-point numbers are of any type, and their arithmetic and comparisons are any operations at
all, new ones at every step (`Floats`); of the comparison with zero it is used that zero is zero.
Times are counts of nanoseconds, which saturate where the source's do.  What only the counters and
the trace read (`counts`, `asked`, `last_evidence`) is left out.

* `ZSelect.step` – a step, from its parts: what is read (`absorb`, `readS1`, `evidence`,
  `accumulate`), a function for each phase, and the helpers that move between phases
  (`enterSuspect`, `enterFits`, `install`, `cancel`, `exit`, `startTrial`, `trialBack`).
* `Call`, `ZSelect.run` – any steps and settings, one after another, and what each step left.
-/

namespace Supdb.Zselect

open StorageLib Run

/-! ## Numbers -/

/-- Floating-point arithmetic: any operations, with the comparison of zero with zero. -/
structure Floats (F : Type) [Zero F] where
  add : F → F → F
  sub : F → F → F
  mul : F → F → F
  div : F → F → F
  max : F → F → F
  abs : F → F
  powi : F → ℕ → F
  lit : ℚ → F
  ofNat : ℕ → F
  lt : F → F → Bool
  le : F → F → Bool
  finite : F → Bool
  secs : F → ℕ
  isZero : F → Bool
  zero_isZero : isZero 0 = true

/-- `Duration::MAX`, in nanoseconds. -/
def DURATION_MAX : ℕ := 2 ^ 64 * 10 ^ 9 - 1

def fromSecs (n : ℕ) : ℕ := n * 10 ^ 9

def fromMillis (n : ℕ) : ℕ := n * 10 ^ 6

/-- `Duration::saturating_add`. -/
def addTime (a b : ℕ) : ℕ := min (a + b) DURATION_MAX

/-- `Duration::saturating_mul`. -/
def mulTime (a n : ℕ) : ℕ := min (a * n) DURATION_MAX

/-- `u32::saturating_add`. -/
def addU32 (a b : ℕ) : ℕ := min (a + b) (2 ^ 32 - 1)

/-- `u64::saturating_add`. -/
def addU64 (a b : ℕ) : ℕ := min (a + b) (2 ^ 64 - 1)

/-! ## Thresholds -/

def GATE_RAW : ℕ := 0
def GATE_CENSUS : ℕ := 1
def GATE_Z : ℕ := 2

def ENTER_FACTOR : ℚ := 3 / 2
def SUSPECT_FACTOR : ℚ := 1 / 2
def RELAX_FACTOR : ℚ := 1 / 2
def VANISH_FACTOR : ℚ := 1 / 2
def SAVING_FLOOR_SHARE : ℚ := 1 / 4
def REFAULT_SHARE : ℚ := 1 / 2
def REFAULT_WINDOW : ℕ := fromSecs 5
def MIN_EVIDENCE_OPS : ℕ := 64
def EAGER_SETTLE : ℕ := fromSecs 2
def PRESSURE_REFAULTS_PER_S : ℚ := 256
def S1_PERIOD : ℕ := fromSecs 1
def CENSUS_INTERVAL : ℕ := fromMillis 100
def FITS_TO_SUSPECT_TICKS : ℕ := 2
def SUSPECT_TO_FITS_TICKS : ℕ := 5
def VANISH_INTERVALS : ℕ := 3
def COVERED_ENOUGH : ℚ := 9 / 10
def E1_SMOOTHING : ℕ := fromSecs 30
def DWELL_FLOOR : ℕ := fromSecs 60
def DWELL_BUILD_FACTOR : ℕ := 10
def RETAIN_FLOOR : ℕ := fromSecs 600
def RETAIN_BUILD_FACTOR : ℕ := 20
def TRIAL_BACKOFF_MIN : ℕ := fromSecs (10 * 60)
def TRIAL_BACKOFF_MAX : ℕ := fromSecs (4 * 60 * 60)
def E2_MEASURE : ℕ := fromSecs 10
def E2_MEASURES : ℕ := 3
def E2_BOUND_SHARE : ℚ := 1 / 2
def TRIAL_FAULT_FACTOR : ℚ := 6 / 5
def TRIAL_LOW_INTERVALS : ℕ := 5
def TRIAL_WALL_FACTOR : ℚ := 3
def TRIAL_WALL_CAP : ℕ := fromSecs 30
def TRIAL_DECIDE_INTERVALS : ℕ := 3
def BUDGET_BUILDS : ℕ := 8
def BUDGET_SUPERSEDED : ℕ := 4
/-- The bits of the outcomes word that are the budget's window. -/
def BUDGET_WINDOW : ℕ := 2 ^ BUDGET_BUILDS - 1
def PAGE : ℕ := 4096
def SHARE_CAP : ℕ := 64
def SMOOTH_CAP : ℕ := 40

def PRIOR_T_F : ℚ := 415 / 10 ^ 7
def PRIOR_T_HIT : ℚ := 73 / 10 ^ 8
def PRIOR_T_Z : ℚ := 44 / 10 ^ 7
def PRIOR_T_HIT_SCAN : ℚ := 33 / 10 ^ 7
def PRIOR_T_Z_SCAN : ℚ := 113 / 10 ^ 7

/-! ## What the caller passes in -/

/-- A class of operation: point reads and counts, or scans. -/
inductive Class
  | read
  | scan
  deriving DecidableEq

/-- `Class::ALL`. -/
def Class.all : List Class := [.read, .scan]

/-- Operations, and the faults they took. -/
structure Window where
  ops : ℕ
  faults : ℕ
  deriving DecidableEq

def Window.none : Window := ⟨0, 0⟩

def Window.add (w other : Window) : Window := ⟨addU64 w.ops other.ops, addU64 w.faults other.faults⟩

/-- The costs, each where it has been measured. -/
structure Costs (F : Type) where
  tF : Option F
  tHit : Option F
  tHitScan : Option F
  tZ : Option F
  tZScan : Option F

def Costs.none {F : Type} : Costs F := ⟨.none, .none, .none, .none, .none⟩

/-- A reading of the model. -/
structure Model (F : Type) where
  phiRaw : F
  phiZ : Option F
  phiZScan : Option F
  refaultRate : F
  budget : ℕ

/-- A reading of the sampler, and the generation of the partitions it is of. -/
structure Sampler (F : Type) where
  costs : Costs F
  cBuild : F
  declined : Bool
  generation : ℕ
  attach : Bool

/-- A census interval. -/
structure Census (F : Type) where
  reads : Window
  scans : Window
  refaults : Option ℕ
  threads : ℕ
  costs : Costs F

def Census.window {F : Type} (c : Census F) : Class → Window
  | .read => c.reads
  | .scan => c.scans

/-- The builder's report. -/
structure Build (F : Type) where
  coverage : F
  installed : ℕ
  superseded : ℕ
  failed : ℕ

/-- Everything one step knows. -/
structure Input (F : Type) where
  now : ℕ
  model : Option (Model F)
  sampler : Option (Sampler F)
  generation : ℕ
  census : Census F
  build : Build F
  footprint : Option ℕ
  rewriting : Bool

/-! ## What comes back -/

inductive Phase
  | fits
  | suspect
  | building
  | compact
  | trial
  deriving DecidableEq, Repr

/-- The gate word a phase publishes. -/
def Phase.gate : Phase → ℕ
  | .fits => GATE_RAW
  | .compact => GATE_Z
  | .suspect | .building | .trial => GATE_CENSUS

/-- Whether the handles run the census. -/
def Phase.census (p : Phase) : Bool := p ≠ .fits

/-- Why COMPACT was left. -/
inductive Exit
  | e1
  | e2
  | e3
  deriving DecidableEq, Repr

/-- The transition a step made. -/
inductive Event
  | suspect
  | relax
  | buildStart
  | buildCancelled
  | buildAbandoned
  | install
  | buildsSuspended
  | exit (why : Exit)
  | trialStart
  | trialBack
  deriving DecidableEq, Repr

/-- Whether an event counts as a switch for the dwell. -/
def Event.isSwitch : Event → Bool
  | .buildCancelled | .buildAbandoned | .install | .exit _ => true
  | _ => false

/-- What a step wants done. -/
structure Decision where
  phase : Phase
  gate : ℕ
  census : Bool
  sample : Bool
  build : Bool
  retire : Bool
  event : Option Event
  deriving DecidableEq, Repr

/-! ## The state -/

/-- Why a build in flight was given up. -/
inductive Cancel
  | vanished
  | budget
  | declined

/-- A ring of `cap` values, oldest first: `push`. -/
def ringPush {α : Type} (cap : ℕ) (l : List (ℕ × α)) (time : ℕ) (v : α) : List (ℕ × α) :=
  (if l.length = cap then l.tail else l) ++ [(time, v)]

/-- `expire`: what is a horizon old or older goes. -/
def ringExpire {α : Type} (l : List (ℕ × α)) (now horizon : ℕ) : List (ℕ × α) :=
  l.dropWhile (fun e => horizon ≤ now - e.1)

/-- What one interval adds to the trailing window. -/
structure Seen where
  refaults : ℕ
  faults : ℕ
  reads : Window
  scans : Window
  counted : Bool

def Seen.window (s : Seen) : Class → Window
  | .read => s.reads
  | .scan => s.scans

/-- What an interval's census says, class by class. -/
structure Evidence (F : Type) where
  valid : Class → Bool
  win : Class → Window
  saving : Class → F

/-- `Evidence::default`. -/
def Evidence.empty {F : Type} [Zero F] : Evidence F :=
  ⟨fun _ => false, fun _ => Window.none, fun _ => 0⟩

def Evidence.any {F : Type} (ev : Evidence F) : Bool := ev.valid .read || ev.valid .scan

/-- The costs resolved. -/
structure Priced (F : Type) where
  tF : F
  hit : Class → F
  z : Class → F

/-- What COMPACT watches. -/
structure Watch where
  unpayingSince : Option ℕ
  stretch : Window
  tickReads : Window
  e2Start : ℕ
  e2Win : Class → Window
  e2Run : ℕ

def Watch.new (now : ℕ) : Watch :=
  { unpayingSince := .none, stretch := Window.none, tickReads := Window.none, e2Start := now,
    e2Win := fun _ => Window.none, e2Run := 0 }

/-- A trial in flight. -/
structure Trial where
  started : ℕ
  pages : ℕ
  faults : ℕ
  lowRun : ℕ
  judged : Option ℕ
  pooled : Class → Window
  intervals : ℕ

/-- The selector. -/
structure ZSelect (F : Type) where
  phase : Phase
  now : ℕ
  model : Option (Model F)
  lastTick : Option ℕ
  sampler : Option (Sampler F)
  samplerAt : ℕ
  generation : ℕ
  zRealized : Option F
  bias : F
  scansAgainst : Bool
  measured : Costs F
  footprint : Option ℕ
  threads : ℕ
  hotTicks : ℕ
  calmTicks : ℕ
  smooth : List (ℕ × F)
  lowSince : Option ℕ
  share : List (ℕ × Seen)
  faultsSinceSuspect : ℕ
  excess : F
  excessAnchor : ℕ
  lastSwitch : Option ℕ
  eager : Bool
  attachEager : Bool
  suspectAtReading : Bool
  attachOnReads : Bool
  readsNow : Bool
  eagerSpent : Bool
  genChangedAt : ℕ
  lastBuildWall : ℕ
  buildStarted : ℕ
  vanished : ℕ
  outcomes : ℕ
  suspendedUntil : Option ℕ
  retainUntil : Option ℕ
  watch : Watch
  backoff : ℕ
  lastTrialEnd : Option ℕ
  trial : Option Trial

namespace ZSelect

variable {F : Type} [Zero F]

/-- `ZSelect::new`: in FITS, with nothing measured. -/
def new : ZSelect F :=
  { phase := .fits, now := 0, model := .none, lastTick := .none, sampler := .none, samplerAt := 0, generation := 0,
    zRealized := .none, bias := 0, scansAgainst := false, measured := Costs.none, footprint :=
    .none, threads := 1, hotTicks := 0, calmTicks := 0, smooth := [], lowSince := .none, share :=
    [], faultsSinceSuspect := 0, excess := 0, excessAnchor := 0, lastSwitch := .none, eager :=
    false, attachEager := false, suspectAtReading := false, attachOnReads := false, readsNow :=
    false, eagerSpent := false, genChangedAt := 0, lastBuildWall := 0, buildStarted :=
    0, vanished := 0, outcomes := 0, suspendedUntil := .none, retainUntil := .none,
    watch := Watch.new 0, backoff := TRIAL_BACKOFF_MIN, lastTrialEnd := .none, trial := .none }

/-- `dwell`. -/
def dwell (s : ZSelect F) : ℕ := max DWELL_FLOOR (mulTime s.lastBuildWall DWELL_BUILD_FACTOR)

/-- `retain`. -/
def retain (s : ZSelect F) : ℕ := max RETAIN_FLOOR (mulTime s.lastBuildWall RETAIN_BUILD_FACTOR)

/-- `suspended`: whether the wasted-build budget is holding building off. -/
def suspended (s : ZSelect F) (now : ℕ) : Bool := s.suspendedUntil.any (fun t => now < t)

/-! ## Costs and thresholds -/

/-- `Costs::or`: each cost that is usable, else the other's. -/
def pickCost (fl : Floats F) (a b : Option F) : Option F :=
  (a.filter (fun v => fl.finite v && fl.lt 0 v)).or b

def orCosts (fl : Floats F) (a b : Costs F) : Costs F :=
  { tF := pickCost fl a.tF b.tF, tHit := pickCost fl a.tHit b.tHit, tHitScan := pickCost fl a.tHitScan b.tHitScan,
    tZ := pickCost fl a.tZ b.tZ, tZScan := pickCost fl a.tZScan b.tZScan }

/-- `Costs::PRIOR`. -/
def priorCosts (fl : Floats F) : Costs F :=
  { tF := some (fl.lit PRIOR_T_F), tHit := some (fl.lit PRIOR_T_HIT), tHitScan := some (fl.lit PRIOR_T_HIT_SCAN),
    tZ := some (fl.lit PRIOR_T_Z), tZScan := some (fl.lit PRIOR_T_Z_SCAN) }

/-- `Costs::PRIOR_HIT`. -/
def priorHit : Class → ℚ
  | .read => PRIOR_T_HIT
  | .scan => PRIOR_T_HIT_SCAN

/-- `Costs::PRIOR_Z`. -/
def priorZ : Class → ℚ
  | .read => PRIOR_T_Z
  | .scan => PRIOR_T_Z_SCAN

/-- `priced`. -/
def priced (fl : Floats F) (s : ZSelect F) : Priced F :=
  let c := orCosts fl (orCosts fl s.measured (s.sampler.elim Costs.none (·.costs))) (priorCosts fl)
  { tF := c.tF.getD (fl.lit PRIOR_T_F)
    hit := fun
      | .read => c.tHit.getD (fl.lit PRIOR_T_HIT)
      | .scan => c.tHitScan.getD (fl.lit PRIOR_T_HIT_SCAN)
    z := fun
      | .read => c.tZ.getD (fl.lit PRIOR_T_Z)
      | .scan => c.tZScan.getD (fl.lit PRIOR_T_Z_SCAN) }

/-- `saving_star`. -/
def savingStar (fl : Floats F) (s : ZSelect F) (c : Class) : F :=
  let p := s.priced fl
  let floor := fl.mul (fl.lit SAVING_FLOOR_SHARE) (fl.sub (fl.lit (priorZ c)) (fl.lit (priorHit c)))
  fl.div (fl.max (fl.sub (p.z c) (p.hit c)) floor) p.tF

/-- `theta_enter`. -/
def thetaEnter (fl : Floats F) (s : ZSelect F) (c : Class) : F := fl.mul (fl.lit ENTER_FACTOR)
    (s.savingStar fl c)

/-- `theta_sus`. -/
def thetaSus (fl : Floats F) (s : ZSelect F) (c : Class) : F := fl.mul (fl.lit SUSPECT_FACTOR)
    (s.savingStar fl c)

/-- `Window::phi`: faults an operation. -/
def phiOf (fl : Floats F) (w : Window) : F := if w.ops = 0 then 0 else fl.div (fl.ofNat w.faults)
    (fl.ofNat w.ops)

/-- `phi_z`: the compact form's predicted faults an operation of a class. -/
def phiZ (fl : Floats F) (s : ZSelect F) (c : Class) : Option F :=
  s.model.bind (fun m =>
    match c with
    | .read => m.phiZ.map (fun z => fl.max z (s.zRealized.getD 0))
    | .scan => m.phiZScan)

/-- `pressure`. -/
def pressure (fl : Floats F) (s : ZSelect F) : Bool :=
  s.model.any (fun m => fl.lt (fl.lit PRESSURE_REFAULTS_PER_S) m.refaultRate)

/-- `switch_allowed`: whether a dwell has passed since the last switch. -/
def switchAllowed (s : ZSelect F) (now : ℕ) : Bool := s.lastSwitch.all (fun t => s.dwell ≤ now - t)

/-- `trial_allowed`: whether the trial back-off has run. -/
def trialAllowed (s : ZSelect F) (now : ℕ) : Bool :=
  s.lastTrialEnd.all (fun t => s.backoff ≤ now - t)

/-- `double_backoff`. -/
def doubleBackoff (s : ZSelect F) : ZSelect F :=
  { s with backoff := min (mulTime s.backoff 2) TRIAL_BACKOFF_MAX }

/-! ## Readings -/

/-- `Model::sanitized`. -/
def sanitizedModel (fl : Floats F) (m : Model F) : Option (Model F) :=
  if ¬ (fl.finite m.phiRaw ∧ fl.finite m.refaultRate) ∨ m.phiZ.any (fun z => !fl.finite z) ∨
      m.phiZScan.any (fun z => !fl.finite z) then none
  else some { phiRaw := fl.max m.phiRaw 0, phiZ := m.phiZ.map (fl.max · 0), phiZScan := m.phiZScan.map (fl.max · 0),
              refaultRate := fl.max m.refaultRate 0, budget := m.budget }

/-- `Sampler::sanitized`. -/
def sanitizedSampler (fl : Floats F) (r : Sampler F) : Option (Sampler F) :=
  if fl.finite r.cBuild ∧ fl.le 0 r.cBuild then some r else none

/-- A sampler's reading, of the generation the partitions are at. -/
def absorbSampler (fl : Floats F) (s : ZSelect F) (input : Input F) : ZSelect F :=
  match input.sampler.bind (sanitizedSampler fl) with
  | some r =>
      if r.generation = s.generation then { s with sampler := some r, samplerAt := s.now } else s
  | none => s

/-- `absorb_census`: what the census, the sampler and the footprint carry that outlives the step. -/
def absorbCensus (fl : Floats F) (s : ZSelect F) (input : Input F) : ZSelect F :=
  let c := input.census.costs
  let rawServed : Bool := s.phase = .suspect ∨ s.phase = .building ∨ s.phase = .trial
  let zServed : Bool := s.phase = .compact
  let served : Costs F :=
    { tF := c.tF, tHit := c.tHit.filter (fun _ => rawServed), tHitScan := c.tHitScan.filter (fun _ => rawServed),
      tZ := c.tZ.filter (fun _ => zServed), tZScan := c.tZScan.filter (fun _ => zServed) }
  let s := { s with measured := orCosts fl served s.measured,
                    threads := if 0 < input.census.threads then input.census.threads else s.threads }
  let s := s.absorbSampler fl input
  { s with footprint := input.footprint.or s.footprint }

/-- The generation of the partitions: a sampler's reading of others is dropped. -/
def absorbGeneration (s : ZSelect F) (input : Input F) (now : ℕ) : ZSelect F :=
  let s := if s.generation ≠ input.generation ∨
    input.rewriting then { s with genChangedAt := now } else s
  let s := { s with generation := input.generation }
  if s.sampler.any (fun r => r.generation ≠ s.generation) then { s with sampler := none } else s

/-- A reading of the model, and whether it counts as a tick: one a period after the last, to within
an interval. -/
def absorbModel (fl : Floats F) (s : ZSelect F) (input : Input F) (now : ℕ) : ZSelect F × Bool :=
  match input.model.bind (sanitizedModel fl) with
  | none => (s, false)
  | some m =>
      let s := { s with model := some m }
      let due := s.lastTick.all (fun t => S1_PERIOD ≤ addTime (now - t) CENSUS_INTERVAL)
      (if due then { s with lastTick := some now } else s, due)

/-- `absorb`: what the input carries that outlives the step, and whether a reading of the model
counts as a tick. -/
def absorb (fl : Floats F) (s : ZSelect F) (input : Input F) (now : ℕ) : ZSelect F × Bool :=
  let s := s.absorbGeneration input now
  let s := if s.phase ≠ .fits then s.absorbCensus fl input else s
  s.absorbModel fl input now

/-- `read_s1`: the model's tick. -/
def readS1 (fl : Floats F) (s : ZSelect F) (now : ℕ) : ZSelect F :=
  match s.model with
  | none => s
  | some m =>
      let s := { s with smooth := ringExpire (ringPush SMOOTH_CAP s.smooth now m.phiRaw) now E1_SMOOTHING }
      let sum := s.smooth.foldl (fun acc e => fl.add acc e.2) 0
      let mean := fl.div sum (fl.ofNat (max s.smooth.length 1))
      let below := fl.lt (fl.add mean (fl.max s.bias 0))
        (fl.mul (s.thetaSus fl .read) (fl.lit RELAX_FACTOR)) && !s.pressure fl
      { s with lowSince := if below then s.lowSince.or (some now) else none }

/-- `raw_seen_in`: the faults an operation over the intervals that counted. -/
def rawSeenIn (fl : Floats F) (s : ZSelect F) (c : Class) : Option F :=
  let w := (s.share.filter (·.2.counted)).foldl (fun w e => w.add (e.2.window c)) Window.none
  if MIN_EVIDENCE_OPS ≤ w.ops then some (phiOf fl w) else none

/-- `note_raw`: what the raw form took, against the model's word. -/
def noteRaw (fl : Floats F) (s : ZSelect F) (reads scans : Option F) : ZSelect F :=
  let said := s.model.elim 0 (·.phiRaw)
  let sus := s.thetaSus fl .read
  let s := match reads with
    | some r =>
        let off := fl.sub r said
        { s with bias := if fl.le sus (fl.abs off) then off else 0, lowSince := none }
    | none => s
  if fl.lt said sus && scans.any (fun r => fl.le (s.thetaSus fl .scan) r) then
    { s with scansAgainst := true } else s

/-- `raw_belief`. -/
def rawBelief (fl : Floats F) (s : ZSelect F) (said : F) : F := fl.max (fl.add said s.bias) 0

/-! ## The census -/

/-- Whether the trailing share of refaults makes an interval evidence. -/
def shareOk (fl : Floats F) (s : ZSelect F) (census : Census F) : Bool :=
  let refaults := s.share.foldl (fun n e => addU64 n e.2.refaults) 0
  let total := s.share.foldl (fun n e => addU64 n e.2.faults) 0
  if census.refaults.isSome then fl.le (fl.mul (fl.lit REFAULT_SHARE) (fl.ofNat total))
    (fl.ofNat refaults)
  else s.model.any (fun m => m.budget / PAGE ≤ s.faultsSinceSuspect)

/-- The newest of a ring, counted. -/
def countNewest (l : List (ℕ × Seen)) : List (ℕ × Seen) :=
  l.dropLast ++ l.getLast?.toList.map (fun e => (e.1, { e.2 with counted := true }))

/-- `evidence`: what an interval says, class by class, and the trailing window. -/
def evidence (fl : Floats F) (s : ZSelect F) (census : Census F) (now : ℕ) :
    ZSelect F × Evidence F :=
  let faults := addU64 census.reads.faults census.scans.faults
  let seen : Seen := { refaults := census.refaults.getD 0, faults := faults, reads := census.reads,
                       scans := census.scans, counted := false }
  let s := { s with faultsSinceSuspect := addU64 s.faultsSinceSuspect faults,
                    share := ringExpire (ringPush SHARE_CAP s.share now seen) now REFAULT_WINDOW }
  if s.shareOk fl census then
    let s := { s with share := countNewest s.share }
    let valid := fun c => decide ((s.phiZ fl c).isSome ∧ MIN_EVIDENCE_OPS ≤ (census.window c).ops)
    (s, { valid := valid
          win := fun c => if valid c then census.window c else Window.none
          saving := fun c => if valid c then fl.sub (phiOf fl (census.window c)) ((s.phiZ fl c).getD 0) else 0 })
  else (s, Evidence.empty)

/-- `accumulate`: the interval into the rent, or the rent aged. -/
def accumulate (fl : Floats F) (s : ZSelect F) (ev : Evidence F) (now : ℕ) : ZSelect F :=
  if ev.any then
    let tF := (s.priced fl).tF
    let delta := Class.all.foldl (fun d c =>
      if ev.valid c then fl.add d (fl.mul (fl.mul (fl.sub (ev.saving c) (s.savingStar fl c)) tF)
        (fl.ofNat (ev.win c).ops))
      else d) 0
    { s with excess := fl.max (fl.add s.excess delta) 0, excessAnchor := now }
  else
    let dwell := s.dwell
    let idle := now - s.excessAnchor
    if fl.lt 0 s.excess ∧ dwell ≤ idle then
      let n := min (idle / max dwell 1) 1100
      { s with excess := fl.mul s.excess (fl.powi (fl.lit (1 / 2)) n),
               excessAnchor := addTime s.excessAnchor (mulTime dwell n) }
    else s

/-! ## The moves between phases -/

/-- `enter_suspect`: the rent starts again, and so does the evidence. -/
def enterSuspect (s : ZSelect F) (now : ℕ) : ZSelect F :=
  { s with phase := .suspect, hotTicks := 0, calmTicks := 0, excess := 0, excessAnchor := now, faultsSinceSuspect := 0,
           share := [], vanished := 0, trial := none, bias := 0, scansAgainst := false, footprint := none }

/-- `enter_fits`: the next episode is a fresh one. -/
def enterFits (s : ZSelect F) : ZSelect F :=
  { s with phase := .fits, hotTicks := 0, calmTicks := 0, excess := 0, faultsSinceSuspect := 0, share := [],
           vanished := 0, trial := none, sampler := none, zRealized := none, backoff :=
           TRIAL_BACKOFF_MIN, lastTrialEnd := none }

/-- `suspend`: building is held off for a dwell. -/
def suspend (s : ZSelect F) (now : ℕ) : ZSelect F :=
  { s with suspendedUntil := some (addTime now s.dwell) }

/-- `install`: the form is attached.  Its assertion: SUSPECT is entered clear of the model's error
and of the scans held against it. -/
def install (fl : Floats F) (s : ZSelect F) (now : ℕ) : Run Unit (ZSelect F × Event) := do
  let s := { s with lastBuildWall := now - s.buildStarted, phase := .compact, lastSwitch := some now,
                    retainUntil := none, zRealized := none }
  Run.assert (fl.isZero s.bias = true ∧ s.scansAgainst = false)
  let s := { s with footprint := none }
  let s := s.noteRaw fl (s.rawSeenIn fl .read) (s.rawSeenIn fl .scan)
  ok ({ s with excess := 0, watch := Watch.new now }, .install)

/-- `cancel`: a build given up. -/
def cancel (s : ZSelect F) (now : ℕ) (why : Cancel) : ZSelect F × Event :=
  let s :=
    { s with eagerSpent := true, lastBuildWall := now - s.buildStarted, lastSwitch := some now }
  let s := { s with retainUntil := some (addTime now s.retain) }
  let s := s.enterSuspect now
  match why with
  | .vanished => (s.doubleBackoff, .buildCancelled)
  | .budget => (s.suspend now, .buildAbandoned)
  | .declined => (s, .buildAbandoned)

/-- `exit`: COMPACT, or a trial, left. -/
def exit (fl : Floats F) (s : ZSelect F) (why : Exit) (now : ℕ) : ZSelect F × Event :=
  let s := { s with eagerSpent := true, lastSwitch := some now, retainUntil := some (addTime now s.retain) }
  let s := if why = .e3 then { s with zRealized := some (phiOf fl s.watch.stretch) } else s
  let s := { s with watch := Watch.new now }
  let s := if why = .e2 then { s with lastTrialEnd := some now } else s
  (s.enterSuspect now, .exit why)

/-- `start_trial`. -/
def startTrial (s : ZSelect F) (now : ℕ) : ZSelect F × Event :=
  let bound := s.footprint.getD 0
  ({ s with trial := some { started := now, pages := max (bound / PAGE) 1, faults := 0, lowRun := 0, judged := none,
                            pooled := fun _ => Window.none, intervals := 0 },
            phase := .trial }, .trialStart)

/-- `trial_back`: the trial ends with the compact form still wanted. -/
def trialBack (s : ZSelect F) (now : ℕ) (wrong : Bool) : ZSelect F × Event :=
  let s := { s with phase := .compact, trial := none, lastTrialEnd := some now }
  let s := if wrong then s.doubleBackoff else s
  ({ s with watch := Watch.new now }, .trialBack)

/-! ## A step, phase by phase -/

/-- `fits`. -/
def fits (fl : Floats F) (s : ZSelect F) (now : ℕ) (tick fresh : Bool) : ZSelect F × Option Event :=
  if ¬ (tick ∨ (s.suspectAtReading ∧ fresh)) then (s, none)
  else match s.model with
    | none => (s, none)
    | some m =>
        let hot := fl.le (s.thetaSus fl .read) m.phiRaw || s.pressure fl
        if s.suspectAtReading then
          let s := { s with hotTicks := 0 }
          if hot then (s.enterSuspect now, some .suspect) else (s, none)
        else
          let s := { s with hotTicks := if hot then addU32 s.hotTicks 1 else 0 }
          if FITS_TO_SUSPECT_TICKS ≤ s.hotTicks then (s.enterSuspect now, some .suspect) else (s, none)

/-- `build_clause`: clauses (a) to (e) of the build row. -/
def buildClause (fl : Floats F) (s : ZSelect F) (now : ℕ) (ev : Evidence F) : Bool :=
  match s.model, s.sampler with
  | some m, some r =>
      if r.declined || s.suspended now then false
      else if ¬ s.switchAllowed now then false
      else
        let stood := !s.eagerSpent && decide (EAGER_SETTLE ≤ now - s.genChangedAt)
        let readNow := !s.eagerSpent && s.attachOnReads && s.readsNow
        let settledAttach := s.attachEager && r.attach && (stood || readNow)
        let settled := (s.eager && stood) || settledAttach
        if !settled && fl.lt s.excess r.cBuild then false
        else
          let pressure := s.pressure fl
          if !(pressure || fl.le (s.thetaSus fl .read) m.phiRaw) then false
          else
            let modelled := (s.phiZ fl .read).any (fun z => fl.le (s.thetaEnter fl .read) (fl.sub m.phiRaw z))
            let predicted := pressure || modelled
            let onPrediction := if settledAttach && !s.eager then modelled else settled
            predicted && (onPrediction ||
              Class.all.any (fun c => ev.valid c && fl.le (s.thetaEnter fl c) (ev.saving c)))
  | _, _ => false

/-- The calm ticks, counted. -/
def countCalm (fl : Floats F) (s : ZSelect F) : ZSelect F :=
  let calm :=
    s.model.any (fun m => fl.lt m.phiRaw (fl.mul (s.thetaSus fl .read) (fl.lit RELAX_FACTOR))) &&
    !s.pressure fl
  { s with calmTicks := if calm then addU32 s.calmTicks 1 else 0 }

/-- SUSPECT's interval: the rent, and a build once it is paid. -/
def payRent (fl : Floats F) (s : ZSelect F) (input : Input F) (now : ℕ) :
    ZSelect F × Option Event :=
  let (s, ev) := s.evidence fl input.census now
  let s := s.accumulate fl ev now
  if s.buildClause fl now ev then
    ({ s with phase := .building, buildStarted := now, vanished := 0, retainUntil := none },
      some .buildStart)
  else (s, none)

/-- `suspect`. -/
def suspect (fl : Floats F) (s : ZSelect F) (input : Input F) (now : ℕ) (tick : Bool) :
    ZSelect F × Option Event :=
  let s := if tick then s.countCalm fl else s
  if tick ∧ SUSPECT_TO_FITS_TICKS ≤ s.calmTicks then (s.enterFits, some .relax) else s.payRent fl
    input now

/-- An evidence interval of a build: whether the saving has vanished for long enough to give it up.
-/
def vanish (fl : Floats F) (s : ZSelect F) (ev : Evidence F) (now : ℕ) : ZSelect F × Option Event :=
  let gone := Class.all.all (fun c =>
    !ev.valid c || fl.lt (ev.saving c) (fl.mul (s.thetaEnter fl c) (fl.lit VANISH_FACTOR)))
  let s := { s with vanished := if gone then addU32 s.vanished 1 else 0 }
  if VANISH_INTERVALS ≤ s.vanished then
    let (s, e) := s.cancel now .vanished
    (s, some e)
  else (s, none)

/-- `building`. -/
def building (fl : Floats F) (s : ZSelect F) (input : Input F) (now : ℕ) (tripped : Bool) :
    Run Unit (ZSelect F × Option Event) := do
  let (s, ev) := s.evidence fl input.census now
  if s.sampler.any (·.declined) then
    let (s, e) := s.cancel now .declined
    ok (s, some e)
  else if fl.le (fl.lit COVERED_ENOUGH) input.build.coverage then
    let (s, e) ← s.install fl now
    ok (if tripped then s.suspend now else s, some e)
  else if tripped then
    let (s, e) := s.cancel now .budget
    ok (s, some e)
  else if ev.any then ok (s.vanish fl ev now)
  else ok (s, none)

/-- `record_outcomes`: the builds collected, in the budget's word; whether a superseded one put it
over. -/
def recordOutcomes (s : ZSelect F) (b : Build F) : ZSelect F × Bool :=
  let outcomes := (fun o => (o <<< 1) % 2 ^ 32)^[min (addU32 b.installed b.failed) BUDGET_BUILDS]
    s.outcomes
  let superseded := min b.superseded BUDGET_BUILDS
  let outcomes := (fun o => ((o <<< 1) % 2 ^ 32) ||| 1)^[superseded] outcomes
  let outcomes := outcomes &&& BUDGET_WINDOW
  ({ s with outcomes := outcomes },
    decide
      (0 < superseded ∧ BUDGET_SUPERSEDED < (List.range 32).countP (fun i => outcomes.testBit i)))

/-- `update_e3`: is the form paying, over the second the census just closed? -/
def updateE3 (fl : Floats F) (s : ZSelect F) (now : ℕ) : ZSelect F :=
  let w := s.watch.tickReads
  let s := { s with watch := { s.watch with tickReads := Window.none } }
  match s.model with
  | none => s
  | some m =>
      if w.ops < MIN_EVIDENCE_OPS then
        { s with watch := { s.watch with unpayingSince := none, stretch := Window.none } }
      else if fl.lt (fl.sub (s.rawBelief fl m.phiRaw) (phiOf fl w)) (s.savingStar fl .read) then
        { s with watch := { s.watch with unpayingSince := s.watch.unpayingSince.or (some now),
                                         stretch := s.watch.stretch.add w } }
      else { s with watch := { s.watch with unpayingSince := none, stretch := Window.none } }

/-- `update_e2`: would the raw form fit? -/
def updateE2 (fl : Floats F) (s : ZSelect F) (now : ℕ) : ZSelect F :=
  if now - s.watch.e2Start < E2_MEASURE then s
  else
    let win := s.watch.e2Win
    let s := { s with watch := { s.watch with e2Win := fun _ => Window.none, e2Start := now } }
    let data := Class.all.any (fun c => MIN_EVIDENCE_OPS ≤ (win c).ops)
    let low := Class.all.all (fun c => (win c).ops < MIN_EVIDENCE_OPS || fl.lt (phiOf fl (win c)) (s.thetaSus fl c))
    let fits := match s.footprint, s.model with
      | some bound, some m => fl.lt (fl.ofNat bound) (fl.mul (fl.lit E2_BOUND_SHARE) (fl.ofNat m.budget))
      | _, _ => false
    { s with watch := { s.watch with e2Run := if data && low && fits then addU32 s.watch.e2Run 1 else 0 } }

/-- COMPACT's readings: the budget's word, and the windows of E3 and E2. -/
def watchCompact (fl : Floats F) (s : ZSelect F) (input : Input F) (now : ℕ) (tick tripped : Bool) :
    ZSelect F :=
  let s := if tripped then s.suspend now else s
  let s := { s with watch := { s.watch with
    tickReads := s.watch.tickReads.add input.census.reads
    e2Win := fun c => (s.watch.e2Win c).add (input.census.window c) } }
  let s := if tick then s.updateE3 fl now else s
  s.updateE2 fl now

/-- COMPACT's way out, a dwell after the last switch. -/
def leaveCompact (fl : Floats F) (s : ZSelect F) (now : ℕ) : Option (ZSelect F × Event) :=
  if s.switchAllowed now then
    if !s.scansAgainst && s.lowSince.any (fun t => s.dwell ≤ now - t) then some (s.exit fl .e1 now)
    else if s.watch.unpayingSince.any (fun t => s.dwell ≤ now - t) then some (s.exit fl .e3 now)
    else if E2_MEASURES ≤ s.watch.e2Run ∧ s.trialAllowed now then some (s.startTrial now)
    else none
  else none

/-- `compact`. -/
def compact (fl : Floats F) (s : ZSelect F) (input : Input F) (now : ℕ) (tick tripped : Bool) :
    ZSelect F × Option Event :=
  let s := s.watchCompact fl input now tick tripped
  match s.leaveCompact fl now with
  | some (s, e) => (s, some e)
  | none => (s, if tripped then some .buildsSuspended else none)

/-- `trial_wall`: how long the trial waits for the fill. -/
def trialWall (fl : Floats F) (s : ZSelect F) (pages : ℕ) : ℕ :=
  let t := fl.div (fl.mul (fl.mul (fl.lit TRIAL_WALL_FACTOR) (fl.ofNat pages)) (s.priced fl).tF)
    (fl.ofNat (max s.threads 1))
  min (fl.secs t) TRIAL_WALL_CAP

/-- A trial that waits for the fill: judged once it has the faults, or the time, or has settled. -/
def judge (fl : Floats F) (s : ZSelect F) (ev : Evidence F) (t : Trial) (now : ℕ) : Trial :=
  let low := Class.all.all (fun c => !ev.valid c || fl.lt (ev.saving c) (s.thetaEnter fl c))
  let t := if ev.any then { t with lowRun := if low then addU32 t.lowRun 1 else 0 } else t
  let filled := fl.le (fl.mul (fl.lit TRIAL_FAULT_FACTOR) (fl.ofNat t.pages)) (fl.ofNat t.faults)
  let waited := decide (s.trialWall fl t.pages ≤ now - t.started)
  let settled := decide (TRIAL_LOW_INTERVALS ≤ t.lowRun)
  if filled || waited || settled then { t with judged := some now } else t

/-- An interval's evidence into the verdict. -/
def pool (ev : Evidence F) (t : Trial) : Trial :=
  if ev.any then
    { t with pooled := fun c => if ev.valid c then (t.pooled c).add (ev.win c) else t.pooled c,
             intervals := t.intervals + 1 }
  else t

/-- A trial being judged: decided once enough is pooled, and undone where a dwell decides nothing.
-/
def verdict (fl : Floats F) (s : ZSelect F) (ev : Evidence F) (t : Trial) (since now : ℕ) :
    ZSelect F × Option Event :=
  let t := pool ev t
  if ev.any ∧ TRIAL_DECIDE_INTERVALS ≤ t.intervals then
    let high := Class.all.any (fun c => decide (0 < (t.pooled c).ops) &&
      (s.phiZ fl c).any (fun z => fl.le (s.thetaEnter fl c) (fl.sub (phiOf fl (t.pooled c)) z)))
    let taken := fun c => if 0 < (t.pooled c).ops then some (phiOf fl (t.pooled c)) else none
    let (s, e) := if high then (s.noteRaw fl (taken .read) (taken .scan)).trialBack now true
      else s.exit fl .e2 now
    (s, some e)
  else if s.dwell ≤ now - since then
    let (s, e) := s.trialBack now false
    (s, some e)
  else ({ s with trial := some t }, none)

/-- `trial_step`. -/
def trialStep (fl : Floats F) (s : ZSelect F) (input : Input F) (now : ℕ) :
    ZSelect F × Option Event :=
  let (s, ev) := s.evidence fl input.census now
  match s.trial with
  | none => ({ s with phase := .compact }, none)
  | some t =>
      let s := { s with trial := none }
      let t := { t with faults := addU64 (addU64 t.faults input.census.reads.faults) input.census.scans.faults }
      match t.judged with
      | none => ({ s with trial := some (s.judge fl ev t now) }, none)
      | some since => s.verdict fl ev t since now

/-- `retire`: whether the retention ended with the form unused. -/
def retire (s : ZSelect F) (now : ℕ) : ZSelect F × Bool :=
  if s.retainUntil.any (fun t => t ≤ now) ∧ (s.phase = .fits ∨ s.phase = .suspect) then
    ({ s with retainUntil := none, sampler := none }, true)
  else (s, false)

/-- `decide`: what the step wants done. -/
def decision (s : ZSelect F) (now : ℕ) (event : Option Event) (retire : Bool) : Decision :=
  { phase := s.phase
    gate := s.phase.gate
    census := s.phase.census
    sample := s.phase = .suspect ∧ s.sampler.isNone
    build := match s.phase with
      | .building => true
      | .compact => !s.suspended now
      | _ => false
    retire := retire
    event := event }

/-- A step's phase, after what is read: the function of the phase it began in. -/
def phaseStep (fl : Floats F) (s : ZSelect F) (input : Input F) (now : ℕ)
    (tick fresh tripped : Bool) : Run Unit (ZSelect F × Option Event) :=
  match s.phase with
  | .fits => ok (s.fits fl now tick fresh)
  | .suspect => ok (s.suspect fl input now tick)
  | .building => s.building fl input now tripped
  | .compact => ok (s.compact fl input now tick tripped)
  | .trial => ok (s.trialStep fl input now)

/-- What a step reads before its phase: whether the model's reading is a tick, and whether the
budget tripped. -/
def readInput (fl : Floats F) (s : ZSelect F) (input : Input F) (now : ℕ) :
    ZSelect F × Bool × Bool :=
  let enough := decide (MIN_EVIDENCE_OPS ≤ addU64 input.census.reads.ops input.census.scans.ops)
  let s := { s with now := now, readsNow := !input.rewriting && enough }
  let (s, tick) := s.absorb fl input now
  let s := if tick then s.readS1 fl now else s
  let (s, tripped) := s.recordOutcomes input.build
  (s, tick, tripped)

/-- What a step does after its phase: the budget's word where nothing was built, the retention's
end, and a decline that has stood for a dwell. -/
def settle (s : ZSelect F) (was : Phase) (tripped : Bool) (now : ℕ) : ZSelect F × Bool :=
  let s := if tripped ∧ was ≠ .building ∧ was ≠ .compact then s.suspend now else s
  let (s, retired) := s.retire now
  (if s.sampler.any (fun r => r.declined && decide (s.dwell ≤ now - s.samplerAt)) then
    { s with sampler := none } else s, retired)

/-- `step`. -/
def step (fl : Floats F) (s : ZSelect F) (input : Input F) : Run Unit (ZSelect F × Decision) := do
  let now := max input.now s.now
  let fresh := input.model.any (fun m => (sanitizedModel fl m).isSome)
  let (s, tick, tripped) := s.readInput fl input now
  let was := s.phase
  let (s, event) ← s.phaseStep fl input now tick fresh tripped
  let (s, retired) := s.settle was tripped now
  ok (s, s.decision now event retired)

end ZSelect

/-! ## Any run -/

/-- A call: a step, with the arithmetic it is in, or a setting. -/
inductive Call (F : Type) [Zero F]
  | step (fl : Floats F) (input : Input F)
  | setEager (on : Bool)
  | setAttachEager (on : Bool)
  | setSuspectAtReading (on : Bool)
  | setAttachOnReads (on : Bool)

/-- What a step began with, what it left and what it answered. -/
structure Taken (F : Type) where
  before : ZSelect F
  after : ZSelect F
  decision : Decision

/-- A call, and the steps taken so far. -/
def ZSelect.call {F : Type} [Zero F] (s : ZSelect F × List (Taken F)) : Call F →
    Run Unit (ZSelect F × List (Taken F))
  | .step fl input => do
      let (after, decision) ← s.1.step fl input
      ok (after, s.2 ++ [⟨s.1, after, decision⟩])
  | .setEager on => ok ({ s.1 with eager := on }, s.2)
  | .setAttachEager on => ok ({ s.1 with attachEager := on }, s.2)
  | .setSuspectAtReading on => ok ({ s.1 with suspectAtReading := on }, s.2)
  | .setAttachOnReads on => ok ({ s.1 with attachOnReads := on }, s.2)

/-- Calls one after another, from a new selector. -/
def ZSelect.run {F : Type} [Zero F] (calls : List (Call F)) :
    Run Unit (ZSelect F × List (Taken F)) :=
  calls.foldlM ZSelect.call (ZSelect.new, [])

end Supdb.Zselect
