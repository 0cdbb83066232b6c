import Mathlib.Data.Nat.Notation
import Mathlib.Logic.Function.Iterate

/-!
# Scans of a cycle

A scan begins at an element and goes from each element to the next one until an attempt
succeeds or the next element is the first one again. It has tried the elements of the cycle
once each when it comes back.
-/

namespace AndroidPlatform.CyclicScan

variable {α σ : Type}

/-- The scan, with at most that many attempts. An attempt may change a state. -/
def scan [DecidableEq α] (next : α → α) (attempt : α → σ → Bool×σ) (first : α) :
    ℕ → α → σ → Option (Option α×σ)
  | 0,_,_ => none
  | steps+1,a,s =>
    match attempt a s with
    | (true,s) => some (some a,s)
    | (false,s) =>
      if next a=first then some (none,s) else scan next attempt first steps (next a) s

/-- The element is the first one again after that many steps, and not before. -/
structure Returns (next : α → α) (first : α) (n : ℕ) : Prop where
  pos : 0 < n
  back : next^[n] first=first
  early : ∀ i, 0 < i → i < n → next^[i] first≠first

/-- How a scan ends: an attempt has succeeded, or all have failed. -/
inductive Ends (next : α → α) (attempt : α → σ → Bool×σ) (first : α) (n : ℕ) :
    Option α×σ → Prop
  | found {i : ℕ} {s s' : σ} : i < n → attempt (next^[i] first) s=(true,s') →
    Ends next attempt first n (some (next^[i] first),s')
  | none {s' : σ} : (∀ i < n, ∃ s, (attempt (next^[i] first) s).1=false) →
    Ends next attempt first n (none,s')

variable [DecidableEq α] {next : α → α} {attempt : α → σ → Bool×σ} {first : α} {n steps : ℕ}

/-- The scan from an element of the cycle, after those before it have failed. -/
theorem scan_from (h : Returns next first n) {i : ℕ} (hi : i < n) (hsteps : n-i ≤ steps) (s : σ)
    (hfailed : ∀ j < i, ∃ s, (attempt (next^[j] first) s).1=false) :
    ∃ result, scan next attempt first steps (next^[i] first) s=some result ∧
      Ends next attempt first n result := by
  induction steps generalizing i s with
  | zero => omega
  | succ steps ih =>
    rw [scan]
    rcases hattempt : attempt (next^[i] first) s with ⟨_ | _,s'⟩
    · have hall : ∀ j < i+1, ∃ s, (attempt (next^[j] first) s).1=false := by
        intro j hj
        rcases Nat.lt_succ_iff_lt_or_eq.mp hj with hj | rfl
        · exact hfailed j hj
        · exact ⟨s,by rw [hattempt]⟩
      have hnext : next (next^[i] first)=next^[i+1] first :=
        (Function.iterate_succ_apply' next i first).symm
      dsimp only
      rw [hnext]
      by_cases hlast : i+1=n
      · rw [hlast,h.back,if_pos rfl]
        exact ⟨_,rfl,.none (hlast ▸ hall)⟩
      · rw [if_neg (h.early (i+1) (Nat.succ_pos i) (by omega))]
        exact ih (by omega) (by omega) s' hall
    · exact ⟨_,rfl,.found hi hattempt⟩

/-- A scan ends with as many attempts as the cycle has elements. -/
theorem scan_ends (h : Returns next first n) (hsteps : n ≤ steps) (s : σ) :
    ∃ result, scan next attempt first steps first s=some result ∧
      Ends next attempt first n result :=
  scan_from (i := 0) h h.pos (by omega) s fun _ hj => absurd hj (Nat.not_lt_zero _)

end AndroidPlatform.CyclicScan
