import TracingHeap.Settings.Environment
import TracingHeap.Proofs.Number.Floating
import TracingHeap.Proofs.Mark.NoFault
import TracingHeap.Proofs.Collection.Step

namespace TracingHeap

open Float.Model (Format UnpackedFloat)
open Float.Model.UnpackedFloat

namespace Settings

variable {s : Settings}

/-- Settings that pass the check, or that come from an environment. -/
def Accepted (s : Settings) : Prop := s.validate = .ok () ∨ ∃ e, s = ofEnvironment e

/-- The limit of a purge step is a number of milliseconds, and less than `2 ^ 64` seconds. -/
def HasSpan (s : Settings) : Prop :=
  ∃ v, Dyadic.ofFloat? s.purgeLimitMs = some v ∧ v.fraction.1 < 1000 * sizeLimit * v.fraction.2

/-- Twice the least batch is a size. -/
def HasBatch (s : Settings) : Prop := 2 * max s.minPerTask 1 < sizeLimit

theorem readLimit?_nonneg {text : String} {x : Float} (h : readLimit? text = some x) : 0.0 ≤ x := by
  unfold readLimit? at h
  obtain ⟨y, -, hy⟩ := Option.bind_eq_some_iff.mp h
  split at hy
  · cases hy
    assumption
  · cases hy

theorem unpack_zero : (0.0 : Float).toModel.unpack = .zero .positive := rfl

theorem zero_le_iff (x : Float) : 0.0 ≤ x ↔ (UnpackedFloat.zero .positive).le x.toModel.unpack = true := by
  change decide ((0.0 : Float).toModel.unpack.le x.toModel.unpack = true) = true ↔ _
  rw [unpack_zero, decide_eq_true_iff]

theorem zero_lt_iff (x : Float) : 0.0 < x ↔ (UnpackedFloat.zero .positive).lt x.toModel.unpack = true := by
  change decide ((0.0 : Float).toModel.unpack.lt x.toModel.unpack = true) = true ↔ _
  rw [unpack_zero, decide_eq_true_iff]

theorem lt_zero_iff (x : Float) : x < 0.0 ↔ x.toModel.unpack.lt (.zero .positive) = true := by
  change decide (x.toModel.unpack.lt (0.0 : Float).toModel.unpack = true) = true ↔ _
  rw [unpack_zero, decide_eq_true_iff]

inductive Nonneg (x : Float) : Prop where
  | zero (sign : Sign) (h : x.toModel.unpack = .zero sign)
  | positive (m : Nat) (e : Int) (hm : 0 < m) (h : x.toModel.unpack = .finite .positive m e hm)
  | infinity (h : x.toModel.unpack = .infinity .positive)

theorem Nonneg.of_le {x : Float} (h : 0.0 ≤ x) : Nonneg x := by
  rw [zero_le_iff] at h
  cases hu : x.toModel.unpack with
  | notANumber =>
    rw [hu] at h
    cases h
  | zero sign => exact .zero sign hu
  | infinity sign =>
    rw [hu] at h
    cases sign with
    | negative => cases h
    | positive => exact .infinity hu
  | finite sign m e hm =>
    rw [hu] at h
    cases sign with
    | negative => cases h
    | positive => exact .positive m e hm hu

theorem Nonneg.of_finite {x : Float} (hfinite : x.isFinite = true) (h : ¬ x < 0.0) : Nonneg x := by
  rw [lt_zero_iff] at h
  change x.toModel.unpack.isFinite = true at hfinite
  cases hu : x.toModel.unpack with
  | notANumber =>
    rw [hu] at hfinite
    cases hfinite
  | zero sign => exact .zero sign hu
  | infinity sign =>
    rw [hu] at hfinite
    cases hfinite
  | finite sign m e hm =>
    rw [hu] at h
    cases sign with
    | negative => exact absurd rfl h
    | positive => exact .positive m e hm hu

theorem Accepted.nonneg (h : s.Accepted) : Nonneg s.purgeLimitMs := by
  rcases h with h | ⟨e, rfl⟩
  · unfold validate at h
    split at h
    · cases h
    · split at h
      · cases h
      · rename_i hlimit
        rw [Bool.or_eq_true, not_or] at hlimit
        exact .of_finite (by simpa using hlimit.1) (by simpa using hlimit.2)
  · change Nonneg ((e.read? "RECLAIM_GC_PURGE_TIME_LIMIT_MS" readLimit?).getD default.purgeLimitMs)
    cases hread : e.read? "RECLAIM_GC_PURGE_TIME_LIMIT_MS" readLimit? with
    | none => exact .of_le (by decide +kernel)
    | some x =>
      obtain ⟨text, -, htext⟩ := Option.bind_eq_some_iff.mp hread
      exact .of_le (readLimit?_nonneg htext)

/-- A limit that is accepted is a span, or is refused for its length when it is wanted. -/
theorem purgeLimit_cases (h : Nonneg s.purgeLimitMs) :
    (s.HasSpan ∧ ∃ d, s.purgeLimit = .ok d) ∨
      ¬ s.HasSpan ∧ s.purgeLimit = .error .durationRange := by
  unfold HasSpan purgeLimit
  generalize s.purgeLimitMs = x at *
  cases h with
  | zero sign hu =>
    have hlt : ¬ 0.0 < x := by
      rw [zero_lt_iff, hu]
      exact Bool.false_ne_true
    rw [if_neg hlt]
    refine .inl ⟨⟨_, Dyadic.ofFloat?_of_unpack (congrArg magnitude? hu), ?_⟩, Duration.zero,
      by decide +kernel⟩
    exact lt_of_eq_of_lt (Nat.zero_mul _) (Nat.mul_pos (by decide) (Nat.two_pow_pos _))
  | positive m e hm hu =>
    obtain ⟨hlt53, hleast, -, hnormal⟩ := (Floating.of_unpack (congrArg magnitude? hu)).shape
    have hlt : 0.0 < x := by
      rw [zero_lt_iff, hu]
      rfl
    rw [if_pos hlt, Dyadic.ofFloat?_of_unpack (congrArg magnitude? hu)]
    have hthreshold : 1000 * sizeLimit = 125 * 2 ^ 46 * 2 ^ 21 := by decide
    obtain ⟨hfield, hiff⟩ := field_div_thousand hu
    have hspan : (∃ v, some (Dyadic.mk (decide (2 ^ 63 ≤ x.toBits.toNat)) m e) = some v ∧
        v.fraction.1 < 1000 * sizeLimit * v.fraction.2) ↔
          (x / 1000.0).toBits.toNat / 2 ^ 52 < 1087 := by
      rw [hiff, hthreshold]
      have := Dyadic.fraction_lt_iff (decide (2 ^ 63 ≤ x.toBits.toNat)) (e := e) (p := 21)
        hlt53 (by omega) (show 2 ^ 52 ≤ 125 * 2 ^ 46 by decide) (by decide)
      constructor
      · rintro ⟨_, ⟨⟩, hv⟩
        have := this.mp hv
        omega
      · intro h
        exact ⟨_, rfl, this.mpr (by omega)⟩
    rw [hspan]
    exact Duration.ofFloat_cases hfield
  | infinity hu =>
    have hlt : 0.0 < x := by
      rw [zero_lt_iff, hu]
      rfl
    have hfinite : ¬ x.isFinite = true := by
      change ¬ x.toModel.unpack.isFinite = true
      rw [hu]
      exact Bool.false_ne_true
    have hdiv : x / 1000.0 = .ofModel (.pack (.infinity .positive)) := by
      change Float.ofModel (.pack (UnpackedFloat.div Format.binary64 x.toModel.unpack
        (1000.0 : Float).toModel.unpack)) = _
      rw [hu, unpack_thousand]
      rfl
    rw [if_pos hlt, show Dyadic.ofFloat? x = none from if_neg hfinite]
    dsimp only
    rw [hdiv]
    exact .inr ⟨fun ⟨_, h, _⟩ => (nomatch h), by decide +kernel⟩

/-- A wave of any length, taken by any number of workers, ends in an overflow exactly if there are
several workers and twice the least batch is no size. -/
theorem wave_overflows_iff {c : Collector} {tr : Tracer} {st : TraceState} (keep : Flags)
    (hs : tr.schema.Streamed) (ht : st.table.Tidy) (hout : 0 < st.outputs.length)
    (current : List Handle) :
    (∃ op, tr.wave (c.markPlan keep).waves current st = .error (.overflow op)) ↔
      c.settings.allowParallel = true ∧ 1 < c.workers ∧ ¬ c.settings.HasBatch := by
  have hplan : (c.markPlan keep).waves.workers =
      if c.settings.allowParallel && 1 < c.workers then some c.workers else none := rfl
  have hleast : (c.markPlan keep).waves.least = max c.settings.minPerTask 1 := rfl
  have hends : ∀ {x : Except Fault (List Handle × TraceState)} {Q}, Ends Fault.Mishap x Q →
      ¬ ∃ op, x = .error (.overflow op) := by
    rintro x Q hx ⟨op, rfl⟩
    exact hx (Fault.IsOverflow.not_broken ⟨op, rfl⟩)
  by_cases hparallel : c.settings.allowParallel = true ∧ 1 < c.workers
  · by_cases hbatch : c.settings.HasBatch
    · have hfits : (c.markPlan keep).waves.Fits := ⟨c.markPlan_least keep, hbatch⟩
      exact iff_of_false (hends (tr.wave_ends hs.averts (hfits.averts _) current ht hout))
        fun h => h.2.2 hbatch
    · refine iff_of_true ⟨.multiply, ?_⟩ ⟨hparallel.1, hparallel.2, hbatch⟩
      unfold Tracer.wave
      rw [hplan, if_pos (by simpa using hparallel), hleast]
      dsimp only
      rw [show mulSizes 2 (max c.settings.minPerTask 1) = .error (.overflow .multiply) from if_neg hbatch]
      rfl
  · refine iff_of_false ?_ fun h => hparallel ⟨h.1, h.2.1⟩
    unfold Tracer.wave
    rw [hplan, if_neg (by simpa using hparallel)]
    exact hends (tr.serialWave_ends hs.averts current ht hout)

/-- What settings that were let through come to. The limit of a purge step is a span exactly if it is
less than `2 ^ 64` seconds, and refused for its length otherwise; and a wave ends in an overflow exactly
if it may be cut into batches and twice the least batch is no size. -/
theorem Accepted.runs_iff (h : s.Accepted) :
    ((∃ d, s.purgeLimit = .ok d) ↔ s.HasSpan) ∧
      (s.purgeLimit = .error .durationRange ↔ ¬ s.HasSpan) ∧
      ∀ (c : Collector) (keep : Flags) (tr : Tracer) (st : TraceState) (current : List Handle),
        c.settings = s → tr.schema.Streamed → st.table.Tidy → 0 < st.outputs.length →
          ((∃ op, tr.wave (c.markPlan keep).waves current st = .error (.overflow op)) ↔
            s.allowParallel = true ∧ 1 < c.workers ∧ ¬ s.HasBatch) := by
  have hlimit := purgeLimit_cases h.nonneg
  refine ⟨?_, ?_, ?_⟩
  · rcases hlimit with ⟨hspan, hd⟩ | ⟨hspan, hd⟩
    · exact iff_of_true hd hspan
    · rw [hd]
      exact iff_of_false (fun ⟨_, h⟩ => nomatch h) hspan
  · rcases hlimit with ⟨hspan, d, hd⟩ | ⟨hspan, hd⟩
    · rw [hd]
      exact iff_of_false (fun h => nomatch h) (not_not_intro hspan)
    · exact iff_of_true hd hspan
  · rintro c keep tr st current rfl hs ht hout
    exact wave_overflows_iff keep hs ht hout current

def paired : Settings := { default with workerThreads := 2 }

def blank : TraceState := ⟨.empty, .empty, [.empty, .empty], .empty⟩

theorem accepted_paired_runs :
    paired.validate = .ok () ∧ (∃ d, paired.purgeLimit = .ok d) ∧
      ¬ ∃ op, Tracer.wave ⟨.empty, .empty, false⟩ ((Collector.start paired 1).markPlan .empty).waves
        [⟨1, by decide, by decide⟩, ⟨2, by decide, by decide⟩] blank = .error (.overflow op) := by
  have hvalid : paired.validate = .ok () := by decide +kernel
  have hruns := Accepted.runs_iff (.inl hvalid)
  refine ⟨hvalid, hruns.1.mpr ⟨⟨false, 2 ^ 52, -51⟩, by decide +kernel, by decide +kernel⟩, ?_⟩
  rw [hruns.2.2 (.start paired 1) _ _ _ _ rfl (fun e he => absurd he (Array.not_mem_empty e))
    .empty (by decide)]
  exact fun h => h.2.2 (by unfold HasBatch; decide)

/-- Settings with a limit of `10 ^ 297` seconds. -/
def endless : Settings := { default with purgeLimitMs := 1e300 }

/-- Settings for two workers whose batches are half of all sizes. -/
def coarse : Settings := { paired with minPerTask := 9223372036854775808 }

/-- A limit that passes the check and one from an environment, neither of which is a span, and a least
batch that passes the check and cannot be doubled. -/
theorem accepted_settings_fail :
    (endless.validate = .ok () ∧ endless.purgeLimit = .error .durationRange) ∧
    (ofEnvironment ⟨[("RECLAIM_GC_PURGE_TIME_LIMIT_MS", "inf")]⟩).purgeLimit =
      .error .durationRange ∧
    coarse.validate = .ok () ∧
    Tracer.wave ⟨.empty, .empty, false⟩ ((Collector.start coarse 1).markPlan .empty).waves
      [⟨1, by decide, by decide⟩] blank = .error (.overflow .multiply) :=
  ⟨⟨by decide +kernel, by decide +kernel⟩, by decide +kernel, by decide +kernel, rfl⟩

end Settings

end TracingHeap
