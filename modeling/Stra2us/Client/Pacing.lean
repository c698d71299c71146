import Mathlib.Algebra.Order.Archimedean.Basic
import Mathlib.Tactic.Linarith
import Stra2us.Client.Synth

namespace Stra2us.Client.Synth

open Foundation

section Property

variable (py : Interpreter) (lower : Text → Text)

-- At least one over the rate apart.
def Apart (rate : Quantity) (earlier later : ℚ) : Prop :=
  ∃ tickInterval, rate.inverse = some tickInterval ∧
    tickInterval.le (.finite (later - earlier)) = true

-- The run comes to an end, starts no tick once the deadline has passed, and keeps apart the
-- ticks that it does start, however long things take and whatever fails.
structure Paced (args : Arguments) : Prop where
  ends : ∀ env start, ∃ fuel outcome, (run py lower env args fuel start).outcome = some outcome
  stops : ∀ env start fuel, ∀ t ∈ (run py lower env args fuel start).starts,
    (deadlineOf args start).le (.finite t) = false
  apart : ∀ env start fuel,
    (run py lower env args fuel start).starts.IsChain (Apart (.ofBinary64 args.rateHz))

def withDuration (args : Arguments) (durationSeconds : Binary64) : Arguments :=
  { args with durationSeconds := durationSeconds, maxRateHz := defaultMaxRateHz }

-- For a duration as it is given, under the default ceiling.
def PacedFor (text : Text) (args : Arguments) : Prop :=
  ∀ durationSeconds, parseDuration py text = .ok durationSeconds →
    Paced py lower (withDuration args durationSeconds)

-- The arguments are turned away, or the first status line fails, or they are numbers.
def Sound (args : Arguments) : Prop :=
  (∃ failure, checked py lower args = .error failure) ∨
    (args.rateHz.isNan = true ∧ args.hasProgressStream = true) ∨
      (args.rateHz.isNan = false ∧ args.durationSeconds.isFinite = true)

end Property

section Guards

variable {py : Interpreter} {lower : Text → Text} {args : Arguments} {mode : Text}

theorem ofBinary64_nan {x : Binary64} : Quantity.ofBinary64 x = .nan ↔ x.isNan = true := by
  unfold Quantity.ofBinary64
  dsimp only
  split_ifs with hnan hfinite <;> simp [hnan]

theorem ofBinary64_finite {x : Binary64} :
    (∃ value, Quantity.ofBinary64 x = .finite value) ↔ x.isFinite = true := by
  unfold Quantity.ofBinary64
  dsimp only
  constructor
  · rintro ⟨value, h⟩
    by_contra hinfinite
    rw [if_neg hinfinite] at h
    split_ifs at h
  · intro hfinite
    rw [Interpreter.notNan_of_isFinite hfinite, if_neg Bool.false_ne_true, if_pos hfinite]
    exact ⟨_, rfl⟩

theorem ofBinary64_defaultMaxRateHz :
    Quantity.ofBinary64 defaultMaxRateHz = .finite 100 := by
  decide +kernel

-- What the three checks of numbers let through.
theorem checked_numbers (h : checked py lower args = .ok mode) :
    (Quantity.ofBinary64 args.rateHz).le (.finite 0) = false ∧
      (Quantity.ofBinary64 args.maxRateHz).lt (.ofBinary64 args.rateHz) = false ∧
        (Quantity.ofBinary64 args.durationSeconds).le (.finite 0) = false := by
  unfold checked at h
  dsimp only at h
  split_ifs at h with hrate hceiling hduration
  exact ⟨Bool.eq_false_of_not_eq_true hrate, Bool.eq_false_of_not_eq_true hceiling,
    Bool.eq_false_of_not_eq_true hduration⟩

end Guards

section Pace

variable {env : Environment}

theorem pass_time (asked : ℚ) (m : Moment) : m.time + asked ≤ (m.pass env asked).time := by
  have h := env.elapse_nonneg m.events
  change m.time + asked ≤ m.time + asked + env.elapse m.events
  linarith

-- The sleep is what is left of the interval, or of the run where that is less.
theorem smaller_larger {asked : ℚ} (hasked : 0 < asked) (remaining : Quantity) :
    ∃ seconds, (Quantity.finite asked).smaller ((Quantity.finite 0).larger remaining) =
        .finite seconds ∧ 0 ≤ seconds ∧
      ∀ left, remaining = .finite left → seconds = asked ∨ left ≤ seconds := by
  have hzero : (Quantity.finite asked).smaller (.finite 0) = .finite 0 := by
    rw [Quantity.smaller_finite, min_eq_right hasked.le]
  cases remaining with
  | nan => exact ⟨0, hzero, le_refl 0, fun left h => by cases h⟩
  | infinite negative =>
      cases negative with
      | false => exact ⟨asked, rfl, hasked.le, fun left h => by cases h⟩
      | true => exact ⟨0, hzero, le_refl 0, fun left h => by cases h⟩
  | finite left =>
      refine ⟨min asked (max 0 left), ?_, le_min hasked.le (le_max_left 0 left), ?_⟩
      · rw [Quantity.larger_finite, Quantity.smaller_finite]
      · intro other h
        rw [← Quantity.finite.inj h]
        rcases le_total asked (max 0 left) with hless | hless
        · exact .inl (min_eq_left hless)
        · rw [min_eq_right hless]
          exact .inr (le_max_right 0 left)

-- At an interval that is a number, the next tick starts no earlier, or behind the deadline.
theorem pace_spec (deadline : Quantity) (interval tickStart : ℚ) (m : Moment) :
    ∃ m', pace env deadline (.finite interval) tickStart m = .ok m' ∧ m.time ≤ m'.time ∧
      ∀ limit, deadline = .finite limit → tickStart + interval ≤ m'.time ∨ limit ≤ m'.time := by
  have hread := @pass_time env 0 m
  unfold pace
  dsimp only
  rw [Quantity.sub_finite]
  by_cases hasked : 0 < interval - (m.time - tickStart)
  · rw [if_pos (Quantity.lt_finite.mpr hasked)]
    obtain ⟨seconds, hseconds, hnonneg, hleft⟩ :=
      smaller_larger hasked (deadline.sub (.finite (m.pass env 0).time))
    have hread' := @pass_time env 0 (m.pass env 0)
    have hslept := @pass_time env seconds ((m.pass env 0).pass env 0)
    rw [hseconds, sleep, if_neg (not_lt.mpr hnonneg)]
    refine ⟨_, rfl, by linarith, ?_⟩
    intro limit hlimit
    rcases hleft (limit - (m.pass env 0).time) (by rw [hlimit, Quantity.sub_finite]) with h | h
    · left
      linarith
    · right
      linarith
  · rw [if_neg (mt Quantity.lt_finite.mp hasked)]
    exact ⟨_, rfl, by linarith, fun _ _ => .inl (by linarith)⟩

end Pace

section Tick

variable {py : Interpreter} {env : Environment} {args : Arguments} {mode : Text}
  {deadline : Quantity} {result result' : SynthResult} {m m' : Moment}

theorem queuePart_time (tickCount : Nat) (tickStart : ℚ) :
    m.time ≤ (queuePart env args mode tickCount tickStart result m).2.time := by
  have h := @pass_time env 0 m
  rw [add_zero] at h
  unfold queuePart
  dsimp only
  split
  · split
    · exact h
    · exact h
  · exact le_refl _

theorem getPart_time {key payload : Text}
    (h : getPart py env key payload result m = .ok (result', m')) : m.time ≤ m'.time := by
  have hpass := @pass_time env 0 m
  rw [add_zero] at hpass
  unfold getPart at h
  split at h
  · dsimp only at h
    split at h
    · cases h
      exact hpass
    · split at h
      · cases h
        exact hpass
      · cases h
  · cases h
    exact hpass

theorem kvPart_time {tickCount : Nat}
    (h : kvPart py env args mode tickCount result m = .ok (result', m')) : m.time ≤ m'.time := by
  have hpass := @pass_time env 0 m
  rw [add_zero] at hpass
  unfold kvPart at h
  dsimp only at h
  split at h
  · split at h
    · exact hpass.trans (getPart_time h)
    · cases h
      exact hpass
  · cases h
    exact le_refl _

theorem progressPart_time {tickCount : Nat}
    (h : progressPart env args tickCount m = .ok m') : m.time ≤ m'.time := by
  have hpass := @pass_time env 0 m
  have hwrite := @pass_time env 0 (m.pass env 0)
  unfold progressPart at h
  split at h
  · split at h
    · cases h
    · split at h
      · cases h
        linarith
      · cases h
        exact le_refl _
  · cases h
    exact le_refl _

-- Whatever fails on the way, a tick ends in the pacing.
theorem tick_paced {tickInterval : Quantity} {tickCount : Nat} {tickStart : ℚ}
    (h : tick py env args mode deadline tickInterval tickCount tickStart result m =
      .ok (result', m')) :
    ∃ m₁, m.time ≤ m₁.time ∧ pace env deadline tickInterval tickStart m₁ = .ok m' := by
  unfold tick at h
  dsimp only [bind, Except.bind] at h
  have hposted := @queuePart_time env args mode result m tickCount tickStart
  cases hkv : kvPart py env args mode tickCount
      (queuePart env args mode tickCount tickStart result m).1
      (queuePart env args mode tickCount tickStart result m).2 with
  | error failure =>
      rw [hkv] at h
      cases h
  | ok stored =>
      have hstored := kvPart_time hkv
      rw [hkv] at h
      dsimp only at h
      cases hprogress : progressPart env args tickCount stored.2 with
      | error failure =>
          rw [hprogress] at h
          cases h
      | ok m₁ =>
          have hshown := progressPart_time hprogress
          rw [hprogress] at h
          dsimp only at h
          cases hpace : pace env deadline tickInterval tickStart m₁ with
          | error failure =>
              rw [hpace] at h
              cases h
          | ok m₂ =>
              rw [hpace] at h
              cases h
              exact ⟨m₁, by linarith, hpace⟩

theorem tick_spec {interval limit : ℚ} {tickCount : Nat} {tickStart : ℚ}
    (h : tick py env args mode (.finite limit) (.finite interval) tickCount tickStart result m =
      .ok (result', m')) : tickStart + interval ≤ m'.time ∨ limit ≤ m'.time := by
  obtain ⟨m₁, -, hpace⟩ := tick_paced h
  obtain ⟨m₂, hpaced, -, hspec⟩ := @pace_spec env (.finite limit) interval tickStart m₁
  rw [hpaced] at hpace
  cases hpace
  exact hspec limit rfl

end Tick

section Loop

variable {py : Interpreter} {env : Environment} {args : Arguments} {mode : Text}
  {deadline tickInterval : Quantity} {start : ℚ}

theorem loop_succ (fuel tickCount : Nat) (result : SynthResult) (m : Moment) :
    loop py env args mode deadline tickInterval start (fuel + 1) tickCount result m =
      if deadline.le (.finite m.time) then
        ⟨[], some (.ok { result with elapsedSeconds := (m.pass env 0).time - start })⟩
      else
        match tick py env args mode deadline tickInterval (tickCount + 1) m.time result
            (m.pass env 0) with
        | .error failure => ⟨[m.time], some (.error failure)⟩
        | .ok (result, m') =>
            let rest := loop py env args mode deadline tickInterval start fuel (tickCount + 1)
              result m'
            { rest with starts := m.time :: rest.starts } := rfl

-- The first tick of a loop starts where the loop does.
theorem loop_head {fuel tickCount : Nat} {result : SynthResult} {m : Moment} {t : ℚ}
    (h : (loop py env args mode deadline tickInterval start fuel tickCount result m).starts.head? =
      some t) : t = m.time ∧ deadline.le (.finite t) = false := by
  cases fuel with
  | zero => cases h
  | succ fuel =>
      rw [loop_succ] at h
      dsimp only at h
      split at h
      · cases h
      · rename_i hdeadline
        have ht : t = m.time := by
          split at h
          · exact (Option.some.inj h).symm
          · exact (Option.some.inj h).symm
        exact ⟨ht, ht ▸ Bool.eq_false_of_not_eq_true hdeadline⟩

theorem loop_stops (fuel tickCount : Nat) (result : SynthResult) (m : Moment) :
    ∀ t ∈ (loop py env args mode deadline tickInterval start fuel tickCount result m).starts,
      deadline.le (.finite t) = false := by
  induction fuel generalizing tickCount result m with
  | zero =>
      intro t ht
      cases ht
  | succ fuel ih =>
      intro t ht
      rw [loop_succ] at ht
      dsimp only at ht
      split at ht
      · cases ht
      · rename_i hdeadline
        have hfirst := Bool.eq_false_of_not_eq_true hdeadline
        split at ht
        · obtain rfl := List.mem_singleton.mp ht
          exact hfirst
        · rcases List.mem_cons.mp ht with rfl | ht
          · exact hfirst
          · exact ih _ _ _ t ht

-- By induction: the next tick of a loop is where the tick before it left the clock.
theorem loop_chain {interval limit : ℚ} (fuel tickCount : Nat) (result : SynthResult)
    (m : Moment) :
    (loop py env args mode (.finite limit) (.finite interval) start fuel tickCount result
      m).starts.IsChain fun earlier later => interval ≤ later - earlier := by
  induction fuel generalizing tickCount result m with
  | zero => exact List.isChain_nil
  | succ fuel ih =>
      rw [loop_succ]
      dsimp only
      split
      · exact List.isChain_nil
      · split
        · exact List.isChain_singleton _
        · rename_i hdeadline result' m' htick
          rw [List.isChain_cons]
          refine ⟨fun t ht => ?_, ih _ _ _⟩
          obtain ⟨rfl, hbefore⟩ := loop_head ht
          have hlimit : ¬limit ≤ m'.time := by
            rw [← Quantity.le_finite, hbefore]
            exact Bool.false_ne_true
          have hspec := (tick_spec htick).resolve_right hlimit
          linarith

-- By induction on how many intervals are left until the deadline.
theorem loop_ends {interval limit : ℚ} (hinterval : 0 < interval) (n tickCount : Nat)
    (result : SynthResult) (m : Moment) (hleft : limit - m.time ≤ n * interval) :
    ∃ outcome, (loop py env args mode (.finite limit) (.finite interval) start (n + 1) tickCount
      result m).outcome = some outcome := by
  induction n generalizing tickCount result m with
  | zero =>
      rw [Nat.cast_zero, zero_mul] at hleft
      rw [loop_succ]
      dsimp only
      rw [if_pos (Quantity.le_finite.mpr (by linarith))]
      exact ⟨_, rfl⟩
  | succ n ih =>
      rw [loop_succ]
      dsimp only
      split
      · exact ⟨_, rfl⟩
      · split
        · exact ⟨_, rfl⟩
        · rename_i hdeadline result' m' htick
          apply ih
          rw [Nat.cast_succ, add_mul, one_mul] at hleft
          have hpos : (0 : ℚ) ≤ n * interval := mul_nonneg (Nat.cast_nonneg n) hinterval.le
          rcases tick_spec htick with h | h
          · linarith
          · linarith

end Loop

section Sufficiency

variable {py : Interpreter} {lower : Text → Text} {args : Arguments} {mode : Text}

theorem run_rejected {failure : Failure} (h : checked py lower args = .error failure)
    (env : Environment) (fuel : Nat) (start : ℚ) :
    run py lower env args fuel start = ⟨[], some (.error failure)⟩ := by
  unfold run
  rw [h]

theorem run_checked {tickInterval : Quantity} (h : checked py lower args = .ok mode)
    (hinverse : (Quantity.ofBinary64 args.rateHz).inverse = some tickInterval) (env : Environment)
    (fuel : Nat) (start : ℚ) :
    run py lower env args fuel start = loop py env args mode (deadlineOf args start) tickInterval
      start fuel 0 .zero (Moment.pass env 0 ⟨start, 0⟩) := by
  unfold run
  rw [h]
  dsimp only
  rw [hinverse]

theorem paced_rejected {failure : Failure} (h : checked py lower args = .error failure) :
    Paced py lower args where
  ends := fun env start => ⟨0, .error failure, by rw [run_rejected h]⟩
  stops := fun env start fuel t ht => by
    rw [run_rejected h] at ht
    cases ht
  apart := fun env start fuel => by
    rw [run_rejected h]
    exact List.isChain_nil

-- The first status line wants the rate as an integer.
theorem progressPart_nan {env : Environment} {tickCount : Nat} {m : Moment}
    (hnan : args.rateHz.isNan = true) (hstream : args.hasProgressStream = true) :
    ∃ failure, progressPart env args tickCount m = .error failure := by
  unfold progressPart
  rw [if_pos hstream, ofBinary64_nan.mpr hnan]
  exact ⟨_, rfl⟩

theorem tick_status {env : Environment} {deadline tickInterval : Quantity} {tickCount : Nat}
    {tickStart : ℚ} {result : SynthResult} {m : Moment} (hnan : args.rateHz.isNan = true)
    (hstream : args.hasProgressStream = true) :
    ∃ failure, tick py env args mode deadline tickInterval tickCount tickStart result m =
      .error failure := by
  unfold tick
  dsimp only [bind, Except.bind]
  cases hkv : kvPart py env args mode tickCount
      (queuePart env args mode tickCount tickStart result m).1
      (queuePart env args mode tickCount tickStart result m).2 with
  | error failure => exact ⟨failure, rfl⟩
  | ok stored =>
      obtain ⟨failure, hprogress⟩ :=
        @progressPart_nan args env tickCount stored.2 hnan hstream
      dsimp only
      rw [hprogress]
      exact ⟨failure, rfl⟩

theorem paced_status (h : checked py lower args = .ok mode) (hnan : args.rateHz.isNan = true)
    (hstream : args.hasProgressStream = true) : Paced py lower args := by
  have hinverse : (Quantity.ofBinary64 args.rateHz).inverse = some .nan := by
    rw [ofBinary64_nan.mpr hnan]
    rfl
  refine ⟨fun env start => ?_, fun env start fuel => ?_, fun env start fuel => ?_⟩
  · refine ⟨1, ?_⟩
    rw [run_checked h hinverse, loop]
    dsimp only
    split
    · exact ⟨_, rfl⟩
    · obtain ⟨failure, htick⟩ := @tick_status py args mode env (deadlineOf args start) .nan 1
        (Moment.pass env 0 ⟨start, 0⟩).time .zero
        (Moment.pass env 0 (Moment.pass env 0 ⟨start, 0⟩)) hnan hstream
      rw [htick]
      exact ⟨_, rfl⟩
  · rw [run_checked h hinverse]
    exact loop_stops fuel 0 .zero _
  · rw [run_checked h hinverse]
    cases fuel with
    | zero => exact List.isChain_nil
    | succ fuel =>
        rw [loop_succ]
        dsimp only
        split
        · exact List.isChain_nil
        · obtain ⟨failure, htick⟩ := @tick_status py args mode env (deadlineOf args start) .nan 1
            (Moment.pass env 0 ⟨start, 0⟩).time .zero
            (Moment.pass env 0 (Moment.pass env 0 ⟨start, 0⟩)) hnan hstream
          rw [htick]
          exact List.isChain_singleton _

theorem paced_numbers (h : checked py lower args = .ok mode) {rate duration : ℚ}
    (hrate : Quantity.ofBinary64 args.rateHz = .finite rate) (hpos : 0 < rate)
    (hduration : Quantity.ofBinary64 args.durationSeconds = .finite duration) :
    Paced py lower args := by
  have hinverse : (Quantity.ofBinary64 args.rateHz).inverse = some (.finite rate⁻¹) := by
    rw [hrate]
    exact if_neg hpos.ne'
  have hdeadline : ∀ start, deadlineOf args start = .finite (start + duration) := by
    intro start
    unfold deadlineOf
    rw [hduration]
    rfl
  have hinterval : 0 < rate⁻¹ := inv_pos.mpr hpos
  refine ⟨fun env start => ?_, fun env start fuel => ?_, fun env start fuel => ?_⟩
  · let m := Moment.pass env 0 ⟨start, 0⟩
    obtain ⟨n, hn⟩ := exists_nat_ge ((start + duration - m.time) / rate⁻¹)
    refine ⟨n + 1, ?_⟩
    rw [run_checked h hinverse, hdeadline]
    exact loop_ends hinterval n 0 .zero m ((div_le_iff₀ hinterval).mp hn)
  · rw [run_checked h hinverse]
    exact loop_stops fuel 0 .zero _
  · rw [run_checked h hinverse, hdeadline]
    apply (loop_chain fuel 0 .zero _).imp
    intro earlier later hapart
    exact ⟨.finite rate⁻¹, hinverse, Quantity.le_finite.mpr hapart⟩

end Sufficiency

end Stra2us.Client.Synth
