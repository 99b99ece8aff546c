import RustTron.Staking.Resources
import RustTron.Library.Results
import RustTron.Library.Rounding

/-!
# Recovery of usage

A used resource recovers over a window of slots: what is used decays to zero by the end of it.
Using more first recovers what is there, and the new window is the average of what is left of the
old one and a whole one, weighted with the usages. Legacy windows count slots, precise ones
thousandths of a slot.

## Main definitions

* `ResourceWindow.consume`: more is used
* `ResourceWindow.recovered`: what is left after some slots
* `ResourceWindow.Sound r`: the window is one that a use leaves, or absent
* `ResourceWindow.Reached r`: what uses leave, with any usage and any slot

## Main results

* `recovered_nonneg`, `recovered_le`, `recovered_antitone`: the recovered usage
* `Sound.consume_spec`: what a use leaves
* `recovery_laws`: the laws for every window that uses leave
-/

namespace RustTron.Actuator.ResourceWindow

open Rounding

def preciseWindow (r : ResourceWindow) : Except ResourceError Int :=
  if r.standardWindow ≤ 0 ∨ r.window < 0 then .error .nonPositiveWindow
  else if r.window = 0 then i64Exact (r.standardWindow * windowSizePrecision)
  else if r.precise then .ok r.window
  else i64Exact (r.window * windowSizePrecision)

def consume (r : ResourceWindow) (amount now : Int) : Except ResourceError ResourceWindow := do
  if amount < 0 then throw (.negativeAmount amount)
  else if now < r.latestSlot then throw (.timeReversal r.latestSlot now)
  else if r.standardWindow ≤ 0 then throw .nonPositiveWindow
  else
    let remaining ← r.recover now
    let usage ← i64Exact (remaining + amount)
    if r.precise then
      let whole := r.standardWindow * windowSizePrecision
      let remainingWindow ← i64Exact
        (max ((← r.preciseWindow) - wrap (now - r.latestSlot) * windowSizePrecision) 0)
      let window ← i64Exact (if usage = 0 then whole
        else min (ceilDiv (remaining * remainingWindow + amount * whole) usage) whole)
      pure ⟨usage, now, window, true, r.standardWindow⟩
    else
      let remainingWindow := max (wrap ((← r.windowSlots) - wrap (now - r.latestSlot))) 0
      let window ← i64Exact (if usage = 0 then r.standardWindow
        else min ((remaining * remainingWindow + amount * r.standardWindow).tdiv usage)
          r.standardWindow)
      pure ⟨usage, now, window, false, r.standardWindow⟩

theorem i64Exact_of_nonneg {x : Int} (hx : 0 ≤ x) (hf : x ≤ i64Max) : i64Exact x = .ok x := by
  rw [i64Exact, if_pos]
  unfold InI64 i64Min
  omega

/-! ## What is recovered -/

theorem ceilDiv_eq_up {x d : Int} (hx : 0 ≤ x) : ceilDiv x d = up x d := by
  rw [ceilDiv, up, Int.tdiv_eq_ediv_of_nonneg hx, Int.tmod_eq_emod_of_nonneg hx]

/-- What is left of a usage when `delta` slots of the window are over. -/
def recovered (usage window delta : Int) : Int :=
  if window ≤ delta then 0
  else half (up (usage * resourcePrecision) window * (window - delta)) window * window /
    resourcePrecision

section Recovered

variable {usage window delta : Int} (husage : 0 ≤ usage) (hwindow : 0 < window)
include husage hwindow

theorem average_nonneg : 0 ≤ up (usage * resourcePrecision) window :=
  le_up hwindow (by rw [zero_mul]; exact mul_nonneg husage (by decide))

theorem recovered_nonneg : 0 ≤ recovered usage window delta := by
  unfold recovered
  split
  · exact le_rfl
  · have ha := mul_nonneg (average_nonneg husage hwindow)
      (show 0 ≤ window - delta by omega)
    exact Int.ediv_nonneg (mul_nonneg (half_nonneg hwindow ha) hwindow.le) (by decide)

theorem recovered_antitone {delta' : Int} (h : delta ≤ delta') :
    recovered usage window delta' ≤ recovered usage window delta := by
  by_cases he : window ≤ delta'
  · rw [recovered, if_pos he]
    exact recovered_nonneg husage hwindow
  · rw [recovered, recovered, if_neg he, if_neg (by omega)]
    refine Int.ediv_le_ediv (by decide) (mul_le_mul_of_nonneg_right ?_ hwindow.le)
    exact half_mono hwindow (mul_le_mul_of_nonneg_left (by omega) (average_nonneg husage hwindow))

omit husage in
/-- Nothing recovers at once: the average is rounded up by less than the precision. -/
theorem recovered_zero (hpr : window ≤ resourcePrecision) :
    recovered usage window 0 = usage := by
  have hle := le_up_mul (x := usage * resourcePrecision) hwindow
  have hlt := up_mul_lt (x := usage * resourcePrecision) hwindow
  rw [recovered, if_neg (by omega), sub_zero, half_mul hwindow]
  have hp : 0 < resourcePrecision := by decide
  exact (Int.ediv_eq_iff_of_pos hp).mpr ⟨hle, by omega⟩

theorem recovered_le (hp : window ≤ resourcePrecision) (hd : 0 ≤ delta) :
    recovered usage window delta ≤ usage :=
  (recovered_antitone husage hwindow hd).trans_eq (recovered_zero hwindow hp)

end Recovered

/-! ## Windows -/

/-- What a slot is in the unit of a window. -/
def scale (precise : Bool) : Int := if precise then windowSizePrecision else 1

/-- A window of one to 28,800 slots. -/
def InWindow (precise : Bool) (window : Int) : Prop :=
  scale precise ≤ window ∧ window ≤ 28800 * scale precise

/-- The window of a use is an average of windows that are not too short. -/
theorem inWindow_average {precise : Bool} {left amount window : Int} (rest : Int)
    (hl : 0 ≤ left) (ham : 0 ≤ amount) (hr : 0 < left → scale precise ≤ rest)
    (hwindow : ∀ k, k * (left + amount) ≤ left * rest + amount * (28800 * scale precise) →
      k ≤ window) : InWindow precise (min window (28800 * scale precise)) := by
  have hs : 0 < scale precise := by cases precise <;> decide
  have ha := hwindow _ (le_average hl ham hr
    (show scale precise ≤ 28800 * scale precise by omega))
  exact ⟨le_min ha (by omega), min_le_right _ _⟩

theorem i64Exact_inWindow {precise : Bool} {window : Int} (h : InWindow precise window) :
    i64Exact window = .ok window := by
  have hb : 0 ≤ window ∧ window ≤ 28800000 := by
    unfold InWindow scale windowSizePrecision at h
    split_ifs at h <;> omega
  exact i64Exact_of_nonneg hb.1 (hb.2.trans (by decide))

/-- The usage is not negative, and the window is one that a use leaves, or absent. -/
structure Sound (r : ResourceWindow) : Prop where
  nonneg : 0 ≤ r.usage
  fits : r.usage ≤ i64Max
  standard : r.standardWindow = 28800
  window : r.window = 0 ∨ InWindow r.precise r.window

/-- The length of the window, in slots. -/
def slots (r : ResourceWindow) : Int :=
  if r.window = 0 then r.standardWindow
  else if r.precise then r.window / windowSizePrecision else r.window

namespace Sound

variable {r : ResourceWindow} {now amount : Int}

theorem slots_mem (h : r.Sound) : 0 < r.slots ∧ r.slots ≤ 28800 := by
  have hwindow := h.window
  have hs := h.standard
  unfold slots windowSizePrecision
  unfold InWindow scale windowSizePrecision at hwindow
  split_ifs at hwindow ⊢ <;> omega

theorem slots_pos (h : r.Sound) : 0 < r.slots := h.slots_mem.1

theorem slots_le (h : r.Sound) : r.slots ≤ 28800 := h.slots_mem.2

theorem windowSlots_eq (h : r.Sound) : r.windowSlots = .ok r.slots := by
  have hwindow := h.window
  have hs := h.standard
  unfold windowSlots slots
  rw [if_neg (by omega)]
  rcases hwindow with hz | hwindow
  · rw [if_pos (Or.inl hz), if_pos hz]
  · unfold InWindow scale at hwindow
    unfold windowSizePrecision at *
    cases hp : r.precise
    · simp only [hp, Bool.false_eq_true, if_false] at hwindow
      rw [if_neg (by simp; omega), if_neg (show ¬ r.window < 0 by omega),
        if_neg (show r.window ≠ 0 by omega)]
      rfl
    · simp only [hp, if_true] at hwindow
      rw [if_neg (by simp; omega), if_neg (show ¬ r.window < 0 by omega),
        if_neg (show r.window ≠ 0 by omega), if_pos rfl, if_pos rfl,
        Int.tdiv_eq_ediv_of_nonneg (by omega)]

/-- The slots since the last use are an `i64`. -/
theorem wrap_sub (hn : r.latestSlot ≤ now) (hf : now - r.latestSlot ≤ i64Max) :
    wrap (now - r.latestSlot) = now - r.latestSlot := by
  unfold i64Max at hf
  unfold wrap
  omega

theorem recover_eq (h : r.Sound) (hno : r.latestSlot ≤ now)
    (hf : now - r.latestSlot ≤ i64Max) :
    r.recover now = .ok (recovered r.usage r.slots (now - r.latestSlot)) := by
  have hp := h.slots_pos
  have hpr : r.slots ≤ resourcePrecision := h.slots_le.trans (by decide)
  have hn : 0 ≤ recovered r.usage r.slots (now - r.latestSlot) :=
    recovered_nonneg h.nonneg hp
  have hle := recovered_le h.nonneg hp hpr (show 0 ≤ now - r.latestSlot by omega)
  simp only [recover, h.windowSlots_eq, bind, Except.bind, if_neg (not_lt.mpr hno),
    wrap_sub hno hf]
  unfold recovered at hn hle ⊢
  split_ifs at hn hle ⊢ with he
  · rfl
  · have ha := average_nonneg h.nonneg hp
    have hs := mul_nonneg ha (show 0 ≤ r.slots - (now - r.latestSlot) by omega)
    have hr : javaRoundRatio (up (r.usage * resourcePrecision) r.slots)
        (r.slots - (now - r.latestSlot)) r.slots =
        half (up (r.usage * resourcePrecision) r.slots * (r.slots - (now - r.latestSlot)))
          r.slots := rfl
    rw [ceilDiv_eq_up (mul_nonneg h.nonneg (by decide)), hr,
      Int.tdiv_eq_ediv_of_nonneg (mul_nonneg (half_nonneg hp hs) hp.le)]
    exact i64Exact_of_nonneg hn (hle.trans h.fits)

theorem preciseWindow_eq (h : r.Sound) (hp : r.precise = true) : ∃ window,
    r.preciseWindow = .ok window ∧ r.slots * 1000 ≤ window ∧ window ≤ 28800000 := by
  have hwindow := h.window
  have hs := h.standard
  unfold InWindow scale at hwindow
  simp only [hp, if_true] at hwindow
  unfold preciseWindow slots
  unfold windowSizePrecision at *
  rw [if_neg (by omega)]
  by_cases hz : r.window = 0
  · rw [if_pos hz, if_pos hz, hs]
    exact ⟨28800000, rfl, by omega, by omega⟩
  · rw [if_neg hz, if_neg hz, if_pos hp, if_pos hp]
    exact ⟨r.window, rfl, by omega, by omega⟩

/-- The outcome of a use: what is left and the amount, unless their sum is no `i64`. -/
theorem consume_spec (h : r.Sound) (ha : 0 ≤ amount) (hn : r.latestSlot ≤ now)
    (hf : now - r.latestSlot ≤ i64Max) :
    if recovered r.usage r.slots (now - r.latestSlot) + amount ≤ i64Max then
      ∃ window, InWindow r.precise window ∧ r.consume amount now =
        .ok ⟨recovered r.usage r.slots (now - r.latestSlot) + amount, now, window, r.precise,
          r.standardWindow⟩
    else r.consume amount now = .error .overflow := by
  have hp := h.slots_pos
  have hr : 0 ≤ recovered r.usage r.slots (now - r.latestSlot) :=
    recovered_nonneg h.nonneg hp
  have hs := h.standard
  -- while something is left the window is not over
  have ho : 0 < recovered r.usage r.slots (now - r.latestSlot) → now - r.latestSlot < r.slots := by
    intro hl
    by_contra hov
    rw [recovered, if_pos (by omega)] at hl
    exact hl.false
  have hrec := h.recover_eq hn hf
  generalize recovered r.usage r.slots (now - r.latestSlot) = left at *
  simp only [consume, if_neg (show ¬ amount < 0 by omega), if_neg (not_lt.mpr hn),
    if_neg (show ¬ r.standardWindow ≤ 0 by omega), hrec, ok_bind, wrap_sub hn hf]
  split
  · rename_i hsu
    rw [i64Exact_of_nonneg (by omega) hsu]
    simp only [ok_bind]
    cases hpr : r.precise
    · have hre : wrap (r.slots - (now - r.latestSlot)) = r.slots - (now - r.latestSlot) := by
        have hlo := h.slots_le
        unfold wrap
        unfold i64Max at hf
        omega
      simp only [Bool.false_eq_true, if_false, h.windowSlots_eq, ok_bind, hre, hs]
      split
      · exact ⟨28800, by unfold InWindow scale; simp, rfl⟩
      · have hwindow : InWindow false (min ((left * max (r.slots - (now - r.latestSlot)) 0 +
            amount * 28800).tdiv (left + amount)) (28800 * scale false)) := by
          refine inWindow_average (max (r.slots - (now - r.latestSlot)) 0) hr ha
            (fun hl => ?_) (fun k hk => ?_)
          · have ho' := ho hl
            exact le_max_of_le_left (show 1 ≤ _ by omega)
          · rw [Int.tdiv_eq_ediv_of_nonneg (by positivity)]
            exact Int.le_ediv_of_mul_le (by omega) hk
        refine ⟨_, hwindow, ?_⟩
        have he := i64Exact_inWindow hwindow
        simp only [scale, Bool.false_eq_true, if_false, mul_one] at he ⊢
        rw [he]
        rfl
    · obtain ⟨whole, hwh, hlow, hh⟩ := h.preciseWindow_eq hpr
      have hre : i64Exact (max (whole - (now - r.latestSlot) * windowSizePrecision) 0) =
          .ok (max (whole - (now - r.latestSlot) * windowSizePrecision) 0) := by
        refine i64Exact_of_nonneg (le_max_right _ _) (max_le ?_ (by decide))
        unfold windowSizePrecision i64Max
        omega
      simp only [if_true, hwh, ok_bind, hs, hre]
      split
      · exact ⟨28800000, by unfold InWindow scale windowSizePrecision; simp, rfl⟩
      · have hwindow : InWindow true (min (ceilDiv
            (left * max (whole - (now - r.latestSlot) * windowSizePrecision) 0 +
              amount * (28800 * windowSizePrecision)) (left + amount)) (28800 * scale true)) := by
          refine inWindow_average (max (whole - (now - r.latestSlot) * windowSizePrecision) 0)
            hr ha (fun hl => ?_) (fun k hk => ?_)
          · have ho' := ho hl
            refine le_max_of_le_left ?_
            unfold scale windowSizePrecision
            rw [if_pos rfl]
            omega
          · have hw : 0 ≤ left * max (whole - (now - r.latestSlot) * windowSizePrecision) 0 +
                amount * (28800 * windowSizePrecision) := by
              have hw' : (0 : Int) ≤ 28800 * windowSizePrecision := by decide
              positivity
            rw [ceilDiv_eq_up hw]
            exact le_up (by omega) hk
        refine ⟨_, hwindow, ?_⟩
        have he := i64Exact_inWindow hwindow
        simp only [scale, if_true] at he ⊢
        rw [he]
        rfl
  · rename_i hsu
    rw [i64Exact, if_neg (by unfold InI64; omega)]
    rfl

end Sound

/-! ## Runs of uses -/

/-- What uses leave, with any usage and any slot in between. -/
inductive Reached : ResourceWindow → Prop
  | absent {usage slot : Int} {precise : Bool} (husage : 0 ≤ usage) (hfits : usage ≤ i64Max) :
    Reached ⟨usage, slot, 0, precise, 28800⟩
  | other {r : ResourceWindow} {usage slot : Int} (hr : Reached r) (husage : 0 ≤ usage)
    (hfits : usage ≤ i64Max) : Reached { r with usage := usage, latestSlot := slot }
  | used {r r' : ResourceWindow} {amount now : Int} (hr : Reached r) (hamount : 0 ≤ amount)
    (hnow : r.latestSlot ≤ now) (hfits : now - r.latestSlot ≤ i64Max)
    (hused : r.consume amount now = .ok r') : Reached r'

/-- A use leaves a sound window. -/
theorem Sound.consume {r r' : ResourceWindow} {amount now : Int} (h : r.Sound)
    (ha : 0 ≤ amount) (hn : r.latestSlot ≤ now) (hf : now - r.latestSlot ≤ i64Max)
    (hu : r.consume amount now = .ok r') : r'.Sound := by
  have hs := h.consume_spec ha hn hf
  split at hs
  · rename_i hsu
    obtain ⟨window, hwindow, hl⟩ := hs
    cases hu.symm.trans hl
    have hr : 0 ≤ recovered r.usage r.slots (now - r.latestSlot) :=
      recovered_nonneg h.nonneg h.slots_pos
    exact ⟨by dsimp only; omega, hsu, h.standard, Or.inr hwindow⟩
  · cases hu.symm.trans hs

theorem Reached.sound {r : ResourceWindow} (hr : Reached r) : r.Sound := by
  induction hr with
  | absent husage hf => exact ⟨husage, hf, rfl, Or.inl rfl⟩
  | other hr husage hf ih => exact ⟨husage, hf, ih.standard, ih.window⟩
  | used hr ha hn hf hu ih => exact ih.consume ha hn hf hu

/-- **The laws of recovery**: what is left is between nothing and the usage, does not grow, and is
nothing once the window is over; a use adds its amount to it and leaves a window of one to 28,800
slots, or fails because the sum is no `i64`. -/
theorem recovery_laws {r : ResourceWindow} (hr : Reached r) {now : Int} (hnow : r.latestSlot ≤ now)
    (hfits : now - r.latestSlot ≤ i64Max) :
    ∃ slots left, r.windowSlots = .ok slots ∧ r.recover now = .ok left ∧
      0 ≤ left ∧ left ≤ r.usage ∧ (r.latestSlot + slots ≤ now → left = 0) ∧
      (∀ later left', now ≤ later → later - r.latestSlot ≤ i64Max →
        r.recover later = .ok left' → left' ≤ left) ∧
      ∀ amount, 0 ≤ amount →
        if left + amount ≤ i64Max then
          ∃ window, InWindow r.precise window ∧
            r.consume amount now = .ok ⟨left + amount, now, window, r.precise, 28800⟩
        else r.consume amount now = .error .overflow := by
  have h := hr.sound
  have hprecision : r.slots ≤ resourcePrecision := h.slots_le.trans (by decide)
  refine ⟨_, _, h.windowSlots_eq, h.recover_eq hnow hfits, recovered_nonneg h.nonneg h.slots_pos,
    recovered_le h.nonneg h.slots_pos hprecision (by omega), ?_, ?_, ?_⟩
  · intro hover
    rw [recovered, if_pos (by omega)]
  · intro later left' hlater hfits' hleft'
    cases hleft'.symm.trans (h.recover_eq (hnow.trans hlater) hfits')
    exact recovered_antitone h.nonneg h.slots_pos (by omega)
  · intro amount hamount
    exact h.standard ▸ h.consume_spec hamount hnow hfits

theorem recovery_laws_sample :
    Reached ⟨1000, 0, 0, true, 28800⟩ ∧ ∃ slots left,
      (ResourceWindow.mk 1000 0 0 true 28800).windowSlots = .ok slots ∧
      (ResourceWindow.mk 1000 0 0 true 28800).recover 14400 = .ok left ∧ left ≤ 1000 := by
  have hr : Reached ⟨1000, 0, 0, true, 28800⟩ := .absent (by decide) (by decide)
  obtain ⟨slots, left, hslots, hleft, -, hle, -⟩ :=
    recovery_laws hr (show (0 : Int) ≤ 14400 by decide) (by decide)
  exact ⟨hr, slots, left, hslots, hleft, hle⟩

/-- A use of a full counter fails. -/
theorem consume_full : ¬ ∀ (r : ResourceWindow) (amount now : Int), Reached r → 0 ≤ amount →
    r.latestSlot ≤ now → ∃ left r', r.recover now = .ok left ∧
      r.consume amount now = .ok r' ∧ r'.usage = left + amount := by
  intro h
  obtain ⟨left, r', -, hused, -⟩ := h ⟨i64Max, 0, 0, false, 28800⟩ 1 0
    (.absent (by decide) (by decide)) (by decide) (by decide)
  have hfull : consume ⟨i64Max, 0, 0, false, 28800⟩ 1 0 = .error .overflow := rfl
  cases hfull.symm.trans hused

end RustTron.Actuator.ResourceWindow
