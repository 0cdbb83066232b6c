import Mathlib.Data.Nat.Digits.Defs
import Mathlib.Data.Nat.Digits.Lemmas
import Mathlib.Data.List.TakeWhile

/-!
# Numbers and words in text

Numbers are printed in a base with a least number of digits, and text is scanned
as `fscanf` and `strtol` do: blanks are skipped, a number ends at the first
character that is not one of its digits, and a word ends at a blank or at its
width.
-/

namespace AndroidPlatform.TextScanning

/-- `isspace` -/
def isSpace (c : UInt8) : Bool := decide (c=32 ∨ 9≤c ∧ c≤13)

/-- The character of a digit. -/
def digitChar (d : ℕ) : UInt8 := if d<10 then UInt8.ofNat (48+d) else UInt8.ofNat (87+d)

/-- The value of a digit in a base. -/
def digitOf (base : ℕ) (c : UInt8) : Option ℕ :=
  let d := if 48≤c ∧ c≤57 then c.toNat-48
    else if 97≤c ∧ c≤122 then c.toNat-87
    else if 65≤c ∧ c≤90 then c.toNat-55 else base
  if d<base then some d else none

/-- The digits of a number, at least `width` of them. -/
def numeralDigits (base width n : ℕ) : List ℕ := (Nat.digits base n).reverse.leftpad width 0

/-- A number in text. -/
def numeral (base width n : ℕ) : List UInt8 := (numeralDigits base width n).map digitChar

/-- Read digits until another character comes. -/
def readDigits (base acc : ℕ) : List UInt8 → ℕ×List UInt8
  | [] => (acc,[])
  | c::text =>
    match digitOf base c with
    | some d => readDigits base (acc*base+d) text
    | none => (acc,c::text)

/-- A conversion `%<width>s`. -/
def scanWord (width : ℕ) (text : List UInt8) : Option (List UInt8×List UInt8) :=
  let t := text.dropWhile isSpace
  let word := (t.takeWhile (fun c => !isSpace c)).take width
  if word=[] then none else some (word,t.drop word.length)

/-- The sign of a number and what follows it. -/
def readSign : List UInt8 → Bool×List UInt8
  | 45::text => (true,text)
  | 43::text => (false,text)
  | text => (false,text)

/-- A conversion `%lu` to an unsigned type of `w` bits. -/
def scanUnsigned (w : ℕ) (text : List UInt8) : Option (ℕ×List UInt8) :=
  let sign := readSign (text.dropWhile isSpace)
  let number := readDigits 10 0 sign.2
  if number.2.length=sign.2.length then none
  else if 2^w≤number.1 then some (2^w-1,number.2)
  else if sign.1 then some ((2^w-number.1)%2^w,number.2)
  else some number

/-- The text after `0x`, if a hexadecimal digit comes then. -/
def skipHexMark : List UInt8 → List UInt8
  | 48::x::c::text =>
    if (x=120 ∨ x=88) ∧ (digitOf 16 c).isSome then c::text else 48::x::c::text
  | text => text

/-- `strtol` in base 16, for a `long` of `w` bits. -/
def strtolHex (w : ℕ) (text : List UInt8) : ℤ :=
  let sign := readSign (text.dropWhile isSpace)
  let n : ℤ := (readDigits 16 0 (skipHexMark sign.2)).1
  if sign.1 then max (-2^(w-1)) (-n) else min (2^(w-1)-1) n

/-! ## What is left -/

theorem length_readDigits (base acc : ℕ) (text : List UInt8) :
    (readDigits base acc text).2.length≤text.length := by
  induction text generalizing acc with
  | nil => exact le_rfl
  | cons c text ih =>
    rw [readDigits]
    split
    · exact (ih _).trans (Nat.le_succ _)
    · exact le_rfl

theorem length_readSign (text : List UInt8) : (readSign text).2.length≤text.length := by
  unfold readSign
  split
  · exact Nat.le_succ _
  · exact Nat.le_succ _
  · exact le_rfl

theorem length_scanUnsigned {w n : ℕ} {text rest : List UInt8}
    (h : scanUnsigned w text=some (n,rest)) : rest.length≤text.length := by
  have hle : (readDigits 10 0 (readSign (text.dropWhile isSpace)).2).2.length≤text.length :=
    (length_readDigits _ _ _).trans ((length_readSign _).trans (List.length_dropWhile_le _ _))
  unfold scanUnsigned at h
  dsimp only at h
  split_ifs at h
  · rw [Option.some.injEq,Prod.mk.injEq] at h
    rwa [← h.2]
  · rw [Option.some.injEq,Prod.mk.injEq] at h
    rwa [← h.2]
  · rw [Option.some.injEq] at h
    rwa [h] at hle

/-- A word takes a part of the text. -/
theorem length_scanWord {width : ℕ} {text word rest : List UInt8}
    (h : scanWord width text=some (word,rest)) : rest.length<text.length := by
  unfold scanWord at h
  dsimp only at h
  split_ifs at h with hnil
  rw [Option.some.injEq,Prod.mk.injEq] at h
  have hdrop : (text.dropWhile isSpace).length≤text.length := List.length_dropWhile_le _ _
  have htake : (((text.dropWhile isSpace).takeWhile fun c => !isSpace c).take width).length≤
      (text.dropWhile isSpace).length :=
    (List.length_take_le' _ _).trans (List.takeWhile_sublist _).length_le
  have hpos := List.length_pos_iff.mpr hnil
  rw [← h.2,List.length_drop]
  omega

/-! ## Reading back -/

theorem digitOf_digitChar {base d : ℕ} (hbase : base≤16) (hd : d<base) :
    digitOf base (digitChar d)=some d := by
  have hvalue : ∀ d<16, (if 48≤digitChar d ∧ digitChar d≤57 then (digitChar d).toNat-48
      else if 97≤digitChar d ∧ digitChar d≤122 then (digitChar d).toNat-87
      else if 65≤digitChar d ∧ digitChar d≤90 then (digitChar d).toNat-55 else base)=d := by
    intro d hd
    interval_cases d <;> rfl
  unfold digitOf
  dsimp only
  rw [hvalue d (lt_of_lt_of_le hd hbase),if_pos hd]

theorem numeralDigits_lt {base : ℕ} (hbase : 1<base) (width n : ℕ) :
    ∀ d∈numeralDigits base width n, d<base := by
  intro d hd
  rw [numeralDigits,List.leftpad,List.mem_append,List.mem_replicate,List.mem_reverse] at hd
  rcases hd with ⟨-,rfl⟩ | hd
  · exact Nat.zero_lt_of_lt hbase
  · exact Nat.digits_lt_base hbase hd

theorem foldl_numeralDigits {base : ℕ} (width n : ℕ) :
    (numeralDigits base width n).foldl (fun acc d => acc*base+d) 0=n := by
  have hzeros : ∀ k, (List.replicate k 0).foldl (fun acc d => acc*base+d) 0=0 := by
    intro k
    induction k with
    | zero => rfl
    | succ k ih => rw [List.replicate_succ,List.foldl_cons,Nat.zero_mul,ih]
  rw [numeralDigits,List.leftpad,List.foldl_append,hzeros,List.foldl_reverse]
  conv_rhs => rw [← Nat.ofDigits_digits base n,Nat.ofDigits_eq_foldr]
  congr 1
  funext d acc
  rw [Nat.add_comm,Nat.mul_comm]
  rfl

/-- Digits that are followed by another character are read back. -/
theorem readDigits_append {base : ℕ} (hbase : base≤16) {ds : List ℕ} (hds : ∀ d∈ds, d<base)
    (acc : ℕ) (rest : List UInt8) :
    readDigits base acc (ds.map digitChar++rest)=
      readDigits base (ds.foldl (fun acc d => acc*base+d) acc) rest := by
  induction ds generalizing acc with
  | nil => rfl
  | cons d ds ih =>
    have hd := digitOf_digitChar hbase (hds d List.mem_cons_self)
    rw [List.map_cons,List.cons_append,readDigits,hd,List.foldl_cons]
    exact ih (fun d hmem => hds d (List.mem_cons_of_mem _ hmem)) _

theorem readDigits_stop {base acc : ℕ} {rest : List UInt8}
    (hrest : ∀ c∈rest.head?, digitOf base c=none) : readDigits base acc rest=(acc,rest) := by
  cases rest with
  | nil => rfl
  | cons c rest => rw [readDigits,hrest c rfl]

theorem readDigits_numeral {base : ℕ} (hlow : 1<base) (hbase : base≤16) (width n : ℕ)
    {rest : List UInt8} (hrest : ∀ c∈rest.head?, digitOf base c=none) :
    readDigits base 0 (numeral base width n++rest)=(n,rest) := by
  rw [numeral,readDigits_append hbase (numeralDigits_lt hlow width n),foldl_numeralDigits,
    readDigits_stop hrest]

theorem numeral_ne_nil {base width : ℕ} (hwidth : 0<width) (n : ℕ) : numeral base width n≠[] := by
  intro hnil
  have hlength := congrArg List.length hnil
  rw [numeral,List.length_map,numeralDigits,List.length_leftpad,List.length_nil] at hlength
  omega


/-- The characters of a number are digits. -/
theorem exists_of_mem_numeral {base : ℕ} (hlow : 1<base) {width n : ℕ} {c : UInt8}
    (hc : c∈numeral base width n) : ∃ d<base, c=digitChar d := by
  obtain ⟨d,hd,rfl⟩ := List.mem_map.mp hc
  exact ⟨d,numeralDigits_lt hlow width n d hd,rfl⟩

/-- A digit is neither a blank nor a sign, nor one of a few other characters. -/
theorem digitChar_spec : ∀ d<16, isSpace (digitChar d)=false ∧ digitChar d≠45 ∧ digitChar d≠43 ∧
    digitChar d≠120 ∧ digitChar d≠88 ∧ digitChar d≠58 ∧ digitChar d≠0 ∧ digitChar d≠42 ∧
    digitChar d≠46 := by
  decide

theorem readSign_of_ne {c : UInt8} {text : List UInt8} (hminus : c≠45) (hplus : c≠43) :
    readSign (c::text)=(false,c::text) := by
  unfold readSign
  split
  · rename_i heq
    exact absurd (List.cons_eq_cons.mp heq).1 hminus
  · rename_i heq
    exact absurd (List.cons_eq_cons.mp heq).1 hplus
  · rfl

/-- Blanks before a word do not matter. -/
theorem dropWhile_gap {gap text : List UInt8} (hgap : ∀ c∈gap, isSpace c=true)
    (htext : ∀ c∈text.head?, isSpace c=false) : (gap++text).dropWhile isSpace=text := by
  rw [List.dropWhile_append_of_pos hgap]
  cases text with
  | nil => rfl
  | cons c text =>
    rw [List.dropWhile_cons_of_neg]
    rw [htext c rfl]
    exact Bool.false_ne_true

theorem takeWhile_word {word rest : List UInt8} (hword : ∀ c∈word, isSpace c=false)
    (hrest : ∀ c∈rest.head?, isSpace c=true) :
    (word++rest).takeWhile (fun c => !isSpace c)=word := by
  rw [List.takeWhile_append_of_pos (fun c hc => by rw [hword c hc]; rfl)]
  cases rest with
  | nil => rw [List.takeWhile_nil,List.append_nil]
  | cons c rest =>
    rw [List.takeWhile_cons_of_neg,List.append_nil]
    rw [hrest c rfl]
    exact Bool.false_ne_true

/-- A word that fits and is followed by a blank is read. -/
theorem scanWord_append {width : ℕ} {gap word rest : List UInt8}
    (hgap : ∀ c∈gap, isSpace c=true) (hne : word≠[]) (hword : ∀ c∈word, isSpace c=false)
    (hwidth : word.length≤width) (hrest : ∀ c∈rest.head?, isSpace c=true) :
    scanWord width (gap++(word++rest))=some (word,rest) := by
  have hhead : ∀ c∈(word++rest).head?, isSpace c=false := by
    intro c hc
    cases word with
    | nil => exact absurd rfl hne
    | cons d word =>
      rw [List.cons_append,List.head?_cons,Option.mem_some_iff] at hc
      exact hc ▸ hword d List.mem_cons_self
  unfold scanWord
  dsimp only
  rw [dropWhile_gap hgap hhead,takeWhile_word hword hrest,List.take_of_length_le hwidth,
    if_neg hne,List.drop_left]

/-- A blank is not a digit. -/
theorem digitOf_of_isSpace {base : ℕ} {c : UInt8} (h : isSpace c=true) : digitOf base c=none := by
  have hlow : ¬48≤c := by
    rw [isSpace,decide_eq_true_iff] at h
    rw [UInt8.le_iff_toNat_le]
    rcases h with rfl | ⟨-,h⟩
    · decide
    · rw [UInt8.le_iff_toNat_le] at h
      have h48 : (48 : UInt8).toNat=48 := rfl
      have h13 : (13 : UInt8).toNat=13 := rfl
      omega
  have hmore : ∀ b : UInt8, 48≤b → ¬b≤c := fun b hb hc => hlow (UInt8.le_trans hb hc)
  have hdigit : ¬(48≤c ∧ c≤57) := fun hand => hlow hand.1
  have hlower : ¬(97≤c ∧ c≤122) := fun hand => hmore 97 (by decide) hand.1
  have hupper : ¬(65≤c ∧ c≤90) := fun hand => hmore 65 (by decide) hand.1
  unfold digitOf
  dsimp only
  rw [if_neg hdigit,if_neg hlower,if_neg hupper,if_neg (Nat.lt_irrefl base)]

/-- A number starts with one of its digits. -/
theorem exists_numeral_eq_cons {base width : ℕ} (hlow : 1<base) (hwidth : 0<width) (n : ℕ) :
    ∃ d<base, ∃ text, numeral base width n=digitChar d::text := by
  cases htext : numeral base width n with
  | nil => exact absurd htext (numeral_ne_nil hwidth n)
  | cons c text =>
    have hmem : c∈numeral base width n := by
      rw [htext]
      exact List.mem_cons_self
    obtain ⟨d,hd,rfl⟩ := exists_of_mem_numeral hlow hmem
    exact ⟨d,hd,text,rfl⟩

/-- A number that is followed by a blank is read. -/
theorem scanUnsigned_numeral {w n : ℕ} (hn : n<2^w) {gap rest : List UInt8}
    (hgap : ∀ c∈gap, isSpace c=true) (hrest : ∀ c∈rest.head?, isSpace c=true) :
    scanUnsigned w (gap++(numeral 10 1 n++rest))=some (n,rest) := by
  have hstop : ∀ c∈rest.head?, digitOf 10 c=none := fun c hc => digitOf_of_isSpace (hrest c hc)
  have hread := readDigits_numeral (by decide) (by decide) 1 n hstop
  obtain ⟨d,hd,text,htext⟩ := exists_numeral_eq_cons (show 1<10 by decide)
    Nat.zero_lt_one n
  have hchar := digitChar_spec d (by omega)
  have hdrop : (gap++(numeral 10 1 n++rest)).dropWhile isSpace=numeral 10 1 n++rest := by
    refine dropWhile_gap hgap (fun c hc => ?_)
    rw [htext,List.cons_append,List.head?_cons,Option.mem_some_iff] at hc
    exact hc ▸ hchar.1
  have hsign : readSign (numeral 10 1 n++rest)=(false,numeral 10 1 n++rest) := by
    rw [htext,List.cons_append]
    exact readSign_of_ne hchar.2.1 hchar.2.2.1
  have hlength : ¬rest.length=(numeral 10 1 n++rest).length := by
    rw [htext,List.length_append,List.length_cons]
    omega
  unfold scanUnsigned
  dsimp only
  rw [hdrop,hsign,hread,if_neg hlength,if_neg (Nat.not_le_of_lt hn),if_neg Bool.false_ne_true]

theorem skipHexMark_of_ne {text : List UInt8} (h : ∀ c∈text, c≠120 ∧ c≠88) :
    skipHexMark text=text := by
  unfold skipHexMark
  split
  · rename_i x c text
    have hx := h x (List.mem_cons_of_mem _ List.mem_cons_self)
    rw [if_neg (fun hand => hand.1.elim hx.1 hx.2)]
  · rfl

/-- A hexadecimal number is read by `strtol`. -/
theorem strtolHex_numeral {w width n : ℕ} (hn : n<2^(w-1)) (hwidth : 0<width) :
    strtolHex w (numeral 16 width n)=n := by
  have hread : readDigits 16 0 (numeral 16 width n)=(n,[]) := by
    have happend := @readDigits_numeral 16 (by decide) (le_refl 16) width n []
      (fun c hc => by cases hc)
    rwa [List.append_nil] at happend
  obtain ⟨d,hd,text,htext⟩ := exists_numeral_eq_cons (show 1<16 by decide) hwidth n
  have hchar := digitChar_spec d hd
  have hdrop : (numeral 16 width n).dropWhile isSpace=numeral 16 width n := by
    refine @dropWhile_gap [] (numeral 16 width n) (fun c hc => absurd hc List.not_mem_nil) (fun c hc => ?_)
    rw [htext,List.head?_cons,Option.mem_some_iff] at hc
    exact hc ▸ hchar.1
  have hsign : readSign (numeral 16 width n)=(false,numeral 16 width n) := by
    rw [htext]
    exact readSign_of_ne hchar.2.1 hchar.2.2.1
  have hmark : skipHexMark (numeral 16 width n)=numeral 16 width n := by
    refine skipHexMark_of_ne (fun c hc => ?_)
    obtain ⟨d,hd,rfl⟩ := exists_of_mem_numeral (by decide) hc
    obtain ⟨-,-,-,hx,hX,-⟩ := digitChar_spec d hd
    exact ⟨hx,hX⟩
  have hle : (n : ℤ)≤2^(w-1)-1 := by
    have hcast : (n : ℤ)<2^(w-1) := by exact_mod_cast hn
    omega
  unfold strtolHex
  dsimp only
  rw [hdrop,hsign,hmark,hread,if_neg Bool.false_ne_true,min_eq_right hle]

end AndroidPlatform.TextScanning
