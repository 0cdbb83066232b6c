import Mathlib.Data.Nat.Notation
import Mathlib.Tactic.Linarith

/-!
# A search that halves downwards

A search in a sorted table keeps an upper bound only: below an entry it goes to half of the place of
the entry, and above an entry it goes halfway to the bound. It stops at the key, between two entries
or at one of the ends. That place is the same for every search that stops so.
-/

namespace AndroidPlatform.HalvingSearch

variable {cmp : ℕ → Ordering} {n : ℕ}

/-- A key that is not above an entry is below all later ones. -/
def Increasing (cmp : ℕ → Ordering) (n : ℕ) : Prop :=
  ∀ i j,i < j → j < n → cmp i≠.gt → cmp j=.lt

/-- Where a search for the key stops: at the key itself, at the last entry below it, or at the first
entry if it is below all. -/
def Stops (cmp : ℕ → Ordering) (n p : ℕ) : Prop :=
  p < n ∧ (cmp p=.eq ∨ (cmp p=.gt ∧ (p+1 < n → cmp (p+1)=.lt)) ∨ (p=0 ∧ cmp 0=.lt))

/-- What is before the place is below the key. -/
theorem Stops.before {p i : ℕ} (h : Stops cmp n p) (hsorted : Increasing cmp n) (hi : i < p) :
    cmp i=.gt := by
  by_contra hne
  have hlt := hsorted i p hi h.1 hne
  rcases h.2 with heq | ⟨hgt,-⟩ | ⟨hzero,-⟩
  · rw [hlt] at heq
    cases heq
  · rw [hlt] at hgt
    cases hgt
  · omega

/-- What is behind the place is above the key. -/
theorem Stops.behind {p i : ℕ} (h : Stops cmp n p) (hsorted : Increasing cmp n) (hi : p < i)
    (hn : i < n) : cmp i=.lt := by
  rcases h.2 with heq | ⟨-,hnext⟩ | ⟨rfl,hlt⟩
  · exact hsorted p i hi hn (by rw [heq]; exact Ordering.noConfusion)
  · have hbehind := hnext (by omega)
    by_cases hsame : i=p+1
    · rw [hsame]
      exact hbehind
    · exact hsorted (p+1) i (by omega) hn (by rw [hbehind]; exact Ordering.noConfusion)
  · exact hsorted 0 i hi hn (by rw [hlt]; exact Ordering.noConfusion)

/-- There is one such place only. -/
theorem Stops.unique {p q : ℕ} (hp : Stops cmp n p) (hq : Stops cmp n q)
    (hsorted : Increasing cmp n) : p=q := by
  have hnot : ∀ {p q},Stops cmp n p → Stops cmp n q → ¬p < q := by
    intro p q hp hq hlt
    have hbefore := hq.before hsorted hlt
    have hbehind := hp.behind hsorted hlt hq.1
    rcases hp.2 with heq | ⟨-,hnext⟩ | ⟨rfl,hbelow⟩
    · rw [hbefore] at heq
      cases heq
    · rcases hq.2 with heq | ⟨hgt,-⟩ | ⟨hzero,-⟩
      · rw [hbehind] at heq
        cases heq
      · rw [hbehind] at hgt
        cases hgt
      · omega
    · rw [hbefore] at hbelow
      cases hbelow
  have hle := Nat.not_lt.mp (hnot hp hq)
  have hge := Nat.not_lt.mp (hnot hq hp)
  omega

/-- The search, with at most that many comparisons. -/
def search (cmp : ℕ → Ordering) (n : ℕ) : ℕ → ℕ → ℕ → Option ℕ
  | 0,_,_ => none
  | fuel+1,pos,stop =>
    match cmp pos with
    | .eq => some pos
    | .lt => if pos=0 then some pos else search cmp n fuel (pos/2) pos
    | .gt =>
      if pos+1=n then some pos
      else if cmp (pos+1)=.lt then some pos
      else search cmp n fuel ((pos+stop)/2) stop

/-- Below the bound the search ends, and it ends at the place. -/
theorem search_stops_from (hsorted : Increasing cmp n) {fuel pos stop : ℕ} (hpos : pos < stop)
    (hstop : stop≤n) (hbound : stop < n → cmp stop=.lt) (hfuel : n*stop+(stop-pos) < fuel) :
    ∃ p,search cmp n fuel pos stop=some p ∧ Stops cmp n p := by
  induction fuel generalizing pos stop with
  | zero => omega
  | succ fuel ih =>
    have hn : pos < n := by omega
    rw [search]
    cases hcmp : cmp pos with
    | eq => exact ⟨pos,rfl,hn,Or.inl hcmp⟩
    | lt =>
      dsimp only
      by_cases hzero : pos=0
      · subst hzero
        rw [if_pos rfl]
        exact ⟨0,rfl,hn,Or.inr (Or.inr ⟨rfl,hcmp⟩)⟩
      · rw [if_neg hzero]
        refine ih (by omega) hn.le (fun _ => hcmp) ?_
        have hless : n*(pos+1)≤n*stop := Nat.mul_le_mul_left n hpos
        rw [Nat.mul_succ] at hless
        omega
    | gt =>
      dsimp only
      by_cases hlast : pos+1=n
      · rw [if_pos hlast]
        exact ⟨pos,rfl,hn,Or.inr (Or.inl ⟨hcmp,fun hlt => by omega⟩)⟩
      rw [if_neg hlast]
      by_cases hnext : cmp (pos+1)=.lt
      · rw [if_pos hnext]
        exact ⟨pos,rfl,hn,Or.inr (Or.inl ⟨hcmp,fun _ => hnext⟩)⟩
      rw [if_neg hnext]
      -- The bound is not the next entry, so halfway is further on.
      have hfar : pos+1≠stop := by
        intro heq
        rw [heq] at hnext hlast
        exact hnext (hbound (by omega))
      exact ih (by omega) hstop hbound (by omega)

/-- A search in a table that is not empty ends, and it ends at the place. -/
theorem search_stops (hsorted : Increasing cmp n) (hn : 0 < n) {fuel : ℕ} (hfuel : n*n+n < fuel) :
    ∃ p,search cmp n fuel (n/2) n=some p ∧ Stops cmp n p :=
  search_stops_from hsorted (by omega) (Nat.le_refl n) (fun hlt => absurd hlt (Nat.lt_irrefl n))
    (by omega)

end AndroidPlatform.HalvingSearch
