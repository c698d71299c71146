import Mathlib.Tactic.Positivity
import Stra2us.Client.Pacing

namespace Stra2us.Client.Synth

open Foundation

section Necessity

variable {py : Interpreter} {lower : Text → Text} {args : Arguments} {mode : Text} {c : ℚ}
  {hc : 0 < c} {deadline : Quantity} {result : SynthResult} {m : Moment} {tickCount : Nat}
  {tickStart : ℚ}

-- Each thing takes the same time, and every call fails.
def steady (c : ℚ) (hc : 0 < c) : Environment where
  elapse := fun _ => c
  elapse_nonneg := fun _ => hc.le
  advances := fun time => by
    obtain ⟨n, hn⟩ := exists_nat_ge (time / c)
    refine ⟨n, ?_⟩
    rw [Finset.sum_const, Finset.card_range, nsmul_eq_mul]
    exact (div_le_iff₀ hc).mp hn
  answer := fun _ _ => .error []

theorem pass_steady (m : Moment) : (m.pass (steady c hc) 0).time = m.time + c := by
  change m.time + 0 + c = m.time + c
  rw [add_zero]

theorem queuePart_steady :
    (queuePart (steady c hc) args mode tickCount tickStart result m).2.time ≤ m.time + c := by
  unfold queuePart
  split
  · exact (pass_steady m).le
  · change m.time ≤ m.time + c
    linarith

theorem kvPart_steady :
    ∃ result' m', kvPart py (steady c hc) args mode tickCount result m = .ok (result', m') ∧
      m'.time ≤ m.time + c := by
  unfold kvPart
  split
  · exact ⟨_, _, rfl, (pass_steady m).le⟩
  · exact ⟨result, m, rfl, by linarith⟩

theorem progressPart_number {env : Environment} {rate : ℚ}
    (hrate : Quantity.ofBinary64 args.rateHz = .finite rate) :
    ∃ m', progressPart env args tickCount m = .ok m' := by
  unfold progressPart
  rw [hrate, truncate]
  dsimp only
  split
  · split
    · exact ⟨_, rfl⟩
    · exact ⟨_, rfl⟩
  · exact ⟨_, rfl⟩

theorem tick_number {rate interval : ℚ} (hrate : Quantity.ofBinary64 args.rateHz = .finite rate) :
    ∃ result' m', tick py (steady c hc) args mode deadline (.finite interval) tickCount tickStart
      result m = .ok (result', m') := by
  obtain ⟨result₁, m₁, hkv, -⟩ := @kvPart_steady py args mode c hc
    (queuePart (steady c hc) args mode tickCount tickStart result m).1
    (queuePart (steady c hc) args mode tickCount tickStart result m).2 tickCount
  obtain ⟨m₂, hprogress⟩ := @progressPart_number args m₁ tickCount (steady c hc) rate hrate
  obtain ⟨m₃, hpace, -⟩ := @pace_spec (steady c hc) deadline interval tickStart m₂
  refine ⟨result₁, m₃, ?_⟩
  unfold tick
  dsimp only [bind, Except.bind]
  rw [hkv]
  dsimp only
  rw [hprogress]
  dsimp only
  rw [hpace]

-- Without a number for an interval there is no sleep.
theorem tick_nan (hstream : args.hasProgressStream = false) :
    ∃ result' m', tick py (steady c hc) args mode deadline .nan tickCount tickStart result m =
      .ok (result', m') ∧ m'.time ≤ m.time + 3 * c := by
  have hposted := @queuePart_steady args mode c hc result m tickCount tickStart
  obtain ⟨result₁, m₁, hkv, hstored⟩ := @kvPart_steady py args mode c hc
    (queuePart (steady c hc) args mode tickCount tickStart result m).1
    (queuePart (steady c hc) args mode tickCount tickStart result m).2 tickCount
  have hprogress : progressPart (steady c hc) args tickCount m₁ = .ok m₁ := by
    unfold progressPart
    rw [hstream, if_neg Bool.false_ne_true]
  refine ⟨result₁, m₁.pass (steady c hc) 0, ?_, ?_⟩
  · unfold tick
    dsimp only [bind, Except.bind]
    rw [hkv]
    dsimp only
    rw [hprogress]
    rfl
  · rw [pass_steady]
    linarith

theorem loop_endless {env : Environment} {tickInterval : Quantity} {start : ℚ}
    (hdeadline : ∀ t, deadline.le (.finite t) = false)
    (htick : ∀ tickCount tickStart result m, ∃ result' m',
      tick py env args mode deadline tickInterval tickCount tickStart result m = .ok (result', m'))
    (fuel tickCount : Nat) (result : SynthResult) (m : Moment) :
    (loop py env args mode deadline tickInterval start fuel tickCount result m).outcome = none := by
  induction fuel generalizing tickCount result m with
  | zero => rfl
  | succ fuel ih =>
      rw [loop_succ]
      dsimp only
      rw [hdeadline, if_neg Bool.false_ne_true]
      obtain ⟨result', m', hok⟩ := htick (tickCount + 1) m.time result (m.pass env 0)
      rw [hok]
      exact ih _ _ _

theorem not_paced_endless {tickInterval : Quantity} (h : checked py lower args = .ok mode)
    (hinverse : (Quantity.ofBinary64 args.rateHz).inverse = some tickInterval)
    (hdeadline : ∀ start t, (deadlineOf args start).le (.finite t) = false)
    (htick : ∀ tickCount tickStart result m, ∃ result' m',
      tick py (steady 1 one_pos) args mode (deadlineOf args 0) tickInterval tickCount tickStart
        result m = .ok (result', m')) : ¬Paced py lower args := by
  intro hpaced
  obtain ⟨fuel, outcome, hends⟩ := hpaced.ends (steady 1 one_pos) 0
  rw [run_checked h hinverse, loop_endless (hdeadline 0) htick] at hends
  cases hends

-- A slow clock sees two ticks start with nothing to keep them apart.
theorem not_paced_nan {duration : ℚ} (h : checked py lower args = .ok mode)
    (hrate : Quantity.ofBinary64 args.rateHz = .nan) (hstream : args.hasProgressStream = false)
    (hduration : Quantity.ofBinary64 args.durationSeconds = .finite duration)
    (hpos : 0 < duration) : ¬Paced py lower args := by
  intro hpaced
  have hc : 0 < duration / 10 := by positivity
  have hinverse : (Quantity.ofBinary64 args.rateHz).inverse = some .nan := by
    rw [hrate]
    rfl
  have hdeadline : deadlineOf args 0 = .finite (0 + duration) := by
    unfold deadlineOf
    rw [hduration]
    rfl
  have hchain := hpaced.apart (steady (duration / 10) hc) 0 2
  rw [run_checked h hinverse, hdeadline] at hchain
  set m := Moment.pass (steady (duration / 10) hc) 0 ⟨0, 0⟩ with hm
  have htime : m.time = 0 + duration / 10 := pass_steady _
  obtain ⟨result₁, m₁, htick₁, hlater⟩ := @tick_nan py args mode (duration / 10) hc
    (.finite (0 + duration)) .zero (m.pass (steady (duration / 10) hc) 0) 1 m.time hstream
  obtain ⟨result₂, m₂, htick₂, -⟩ := @tick_nan py args mode (duration / 10) hc
    (.finite (0 + duration)) result₁ (m₁.pass (steady (duration / 10) hc) 0) 2 m₁.time hstream
  rw [pass_steady] at hlater
  have hfirst : ¬(Quantity.finite (0 + duration)).le (.finite m.time) = true := by
    rw [Quantity.le_finite]
    linarith
  have hsecond : ¬(Quantity.finite (0 + duration)).le (.finite m₁.time) = true := by
    rw [Quantity.le_finite]
    linarith
  rw [loop] at hchain
  dsimp only at hchain
  rw [if_neg hfirst, htick₁] at hchain
  dsimp only at hchain
  rw [loop] at hchain
  dsimp only at hchain
  rw [if_neg hsecond, htick₂] at hchain
  obtain ⟨tickInterval, hnan, hapart⟩ := hchain.rel
  rw [hrate] at hnan
  obtain rfl := Option.some.inj hnan
  cases hapart

end Necessity

section Theorem

variable {py : Interpreter} {lower : Text → Text} {args : Arguments} {mode : Text}

theorem deadlineOf_special
    (h : Quantity.ofBinary64 args.durationSeconds = .nan ∨
      Quantity.ofBinary64 args.durationSeconds = .infinite false) (start t : ℚ) :
    (deadlineOf args start).le (.finite t) = false := by
  unfold deadlineOf
  rcases h with h | h
  · rw [h]
    rfl
  · rw [h]
    rfl

theorem paced_iff (hceiling : args.maxRateHz = defaultMaxRateHz) :
    Paced py lower args ↔ Sound py lower args := by
  cases h : checked py lower args with
  | error failure => exact iff_of_true (paced_rejected h) (.inl ⟨failure, h⟩)
  | ok mode =>
      obtain ⟨hrate, hbelow, hduration⟩ := checked_numbers h
      rw [hceiling, ofBinary64_defaultMaxRateHz] at hbelow
      have hsound : Sound py lower args ↔
          (args.rateHz.isNan = true ∧ args.hasProgressStream = true) ∨
            (args.rateHz.isNan = false ∧ args.durationSeconds.isFinite = true) := by
        unfold Sound
        rw [h]
        exact or_iff_right fun ⟨failure, hfailure⟩ => by cases hfailure
      rw [hsound]
      rcases Quantity.nan_or_between hrate hbelow with hnan | ⟨rate, hnumber, hpos, -⟩
      · have hisNan := ofBinary64_nan.mp hnan
        have hinverse : (Quantity.ofBinary64 args.rateHz).inverse = some .nan := by
          rw [hnan]
          rfl
        cases hstream : args.hasProgressStream with
        | true => exact iff_of_true (paced_status h hisNan hstream) (.inl ⟨hisNan, rfl⟩)
        | false =>
            have hunsound : ¬((args.rateHz.isNan = true ∧ false = true) ∨
                (args.rateHz.isNan = false ∧ args.durationSeconds.isFinite = true)) := by
              rw [hisNan]
              simp
            apply iff_of_false _ hunsound
            rcases Quantity.nan_or_above hduration with hspecial | hspecial | ⟨duration, hd, hpos⟩
            · apply not_paced_endless h hinverse (deadlineOf_special (.inl hspecial))
              intro tickCount tickStart result m
              obtain ⟨result', m', htick, -⟩ := @tick_nan py args mode 1 one_pos
                (deadlineOf args 0) result m tickCount tickStart hstream
              exact ⟨result', m', htick⟩
            · apply not_paced_endless h hinverse (deadlineOf_special (.inr hspecial))
              intro tickCount tickStart result m
              obtain ⟨result', m', htick, -⟩ := @tick_nan py args mode 1 one_pos
                (deadlineOf args 0) result m tickCount tickStart hstream
              exact ⟨result', m', htick⟩
            · exact not_paced_nan h hnan hstream hd hpos
      · have hnotNan : args.rateHz.isNan = false := by
          apply Bool.eq_false_of_not_eq_true
          rw [← ofBinary64_nan, hnumber]
          intro hnan
          cases hnan
        have hinverse : (Quantity.ofBinary64 args.rateHz).inverse = some (.finite rate⁻¹) := by
          rw [hnumber]
          exact if_neg hpos.ne'
        rw [hnotNan]
        have hspecial : ∀ start t, ¬args.durationSeconds.isFinite = true →
            (deadlineOf args start).le (.finite t) = false := by
          intro start t hinfinite
          rcases Quantity.nan_or_above hduration with hd | hd | ⟨duration, hd, -⟩
          · exact deadlineOf_special (.inl hd) start t
          · exact deadlineOf_special (.inr hd) start t
          · exact absurd (ofBinary64_finite.mp ⟨duration, hd⟩) hinfinite
        by_cases hfinite : args.durationSeconds.isFinite = true
        · obtain ⟨duration, hd⟩ := ofBinary64_finite.mpr hfinite
          exact iff_of_true (paced_numbers h hnumber hpos hd) (.inr ⟨rfl, hfinite⟩)
        · refine iff_of_false ?_ ?_
          · apply not_paced_endless h hinverse fun start t => hspecial start t hfinite
            intro tickCount tickStart result m
            exact tick_number hnumber
          · rintro (⟨hfalse, -⟩ | ⟨-, hd⟩)
            · cases hfalse
            · exact hfinite hd

end Theorem

section Sample

def sampleInterpreter : Interpreter where
  jsonDepth := 100
  jsonDepth_pos := by omega
  reprDepth := 100
  printable := fun _ => true

-- One post a second with a status line, and posts without either.
def oncePerSecond : Arguments where
  queueTopic := some "heartbeep".toList
  kvKey := none
  durationSeconds := .ofRatio false 300 1
  rateHz := .ofRatio false 1 1
  mode := "q-only".toList
  maxRateHz := defaultMaxRateHz
  hasProgressStream := true

def noRate : Arguments :=
  { oncePerSecond with rateHz := .nan, hasProgressStream := false }

def notSound (args : Arguments) : Bool :=
  (checked sampleInterpreter (·.map Char.toLower) args).isOk &&
    !(args.rateHz.isNan && args.hasProgressStream) &&
      (args.rateHz.isNan || !args.durationSeconds.isFinite)

theorem not_sound {args : Arguments} (h : notSound args = true) :
    ¬Sound sampleInterpreter (·.map Char.toLower) args := by
  unfold notSound at h
  rintro (⟨failure, hfailure⟩ | ⟨hnan, hstream⟩ | ⟨hnan, hfinite⟩)
  · rw [hfailure] at h
    cases h
  · rw [hnan, hstream] at h
    simp at h
  · rw [hnan, hfinite] at h
    simp at h

-- A duration that overflows is infinite.
example : parseDuration sampleInterpreter "1e308h".toList = .ok (.infinity false) := by
  decide +kernel

end Sample

end Stra2us.Client.Synth
