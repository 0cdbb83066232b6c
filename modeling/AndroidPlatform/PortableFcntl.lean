import Mathlib.Data.BitVec
import Mathlib.Data.Nat.Notation

/-!
# Translation of open flags

`flags_p2n` of `fcntl_portable.h`, compiled for x86. The four portable flags and
the four native ones occupy the same four bits in different order, and the
translation moves one flag after the other inside one word. Two of the moves clear
a bit that an earlier one may have set.
-/

namespace AndroidPlatform.PortableFcntl

/-- `O_DIRECTORY_PORTABLE`. -/
def oDirectoryPortable : BitVec 32 := BitVec.twoPow 32 14

/-- `O_NOFOLLOW_PORTABLE`. -/
def oNofollowPortable : BitVec 32 := BitVec.twoPow 32 15

/-- `O_DIRECT_PORTABLE`. -/
def oDirectPortable : BitVec 32 := BitVec.twoPow 32 16

/-- `O_LARGEFILE_PORTABLE`. -/
def oLargefilePortable : BitVec 32 := BitVec.twoPow 32 17

/-- `O_DIRECT` of the generic `fcntl.h`. -/
def oDirect : BitVec 32 := BitVec.twoPow 32 14

/-- `O_LARGEFILE` of the generic `fcntl.h`. -/
def oLargefile : BitVec 32 := BitVec.twoPow 32 15

/-- `O_DIRECTORY` of the generic `fcntl.h`. -/
def oDirectory : BitVec 32 := BitVec.twoPow 32 16

/-- `O_NOFOLLOW` of the generic `fcntl.h`. -/
def oNofollow : BitVec 32 := BitVec.twoPow 32 17

/-- The constants have the octal values of the headers. -/
example : oDirectoryPortable=0o40000 ∧ oNofollowPortable=0o100000 ∧ oDirectPortable=0o200000 ∧
    oLargefilePortable=0o400000 ∧ oDirect=0o40000 ∧ oLargefile=0o100000 ∧
    oDirectory=0o200000 ∧ oNofollow=0o400000 := by decide

/-- One `if` of `flags_p2n`: the portable flag is taken out and the native one put in. -/
def moveFlag (pFlags portable native machineFlags : BitVec 32) : BitVec 32 :=
  if pFlags &&& portable≠0 then (machineFlags ^^^ portable) ||| native else machineFlags

/-- `flags_p2n`. -/
def flagsP2n (pFlags : BitVec 32) : BitVec 32 :=
  let machineFlags := moveFlag pFlags oDirectoryPortable oDirectory pFlags
  let machineFlags := moveFlag pFlags oNofollowPortable oNofollow machineFlags
  let machineFlags := moveFlag pFlags oDirectPortable oDirect machineFlags
  moveFlag pFlags oLargefilePortable oLargefile machineFlags

/-- The word contains a flag. -/
def Contains (flags flag : BitVec 32) : Prop := flags &&& flag≠0

/-- The bits that neither set of flags uses. -/
def otherBits : BitVec 32 :=
  ~~~(oDirectoryPortable ||| oNofollowPortable ||| oDirectPortable ||| oLargefilePortable)

/-- The result contains each native flag exactly if the argument contains the portable
one, and the other bits are unchanged. -/
structure Translates (pFlags : BitVec 32) : Prop where
  directory : Contains (flagsP2n pFlags) oDirectory ↔ Contains pFlags oDirectoryPortable
  nofollow : Contains (flagsP2n pFlags) oNofollow ↔ Contains pFlags oNofollowPortable
  direct : Contains (flagsP2n pFlags) oDirect ↔ Contains pFlags oDirectPortable
  largefile : Contains (flagsP2n pFlags) oLargefile ↔ Contains pFlags oLargefilePortable
  others : flagsP2n pFlags &&& otherBits=pFlags &&& otherBits

/-! ## The bits of the result -/

/-- A test with a single bit. -/
theorem contains_twoPow (flags : BitVec 32) {i : ℕ} (hi : i < 32) :
    Contains flags (BitVec.twoPow 32 i) ↔ flags.getLsbD i=true := by
  rw [Contains,BitVec.and_twoPow]
  cases hbit : flags.getLsbD i with
  | false =>
    rw [if_neg (by decide)]
    exact ⟨fun h => absurd rfl h,fun h => by cases h⟩
  | true =>
    rw [if_pos rfl]
    refine ⟨fun _ => rfl,fun _ hzero => ?_⟩
    have hself := congrArg (fun bits => bits.getLsbD i) hzero
    simp [hi] at hself

/-- The bits after one move. -/
theorem getLsbD_moveFlag (pFlags machineFlags : BitVec 32) {p n i : ℕ} (hp : p < 32)
    (hn : n < 32) :
    (moveFlag pFlags (BitVec.twoPow 32 p) (BitVec.twoPow 32 n) machineFlags).getLsbD i=
      if pFlags.getLsbD p=true then
        (machineFlags.getLsbD i ^^ decide (i=p)) || decide (i=n)
      else machineFlags.getLsbD i := by
  have htest : pFlags &&& BitVec.twoPow 32 p≠0 ↔ pFlags.getLsbD p=true :=
    contains_twoPow pFlags hp
  rw [moveFlag]
  by_cases hbit : pFlags.getLsbD p=true
  · rw [if_pos (htest.mpr hbit),if_pos hbit,BitVec.getLsbD_or,BitVec.getLsbD_xor,
      BitVec.getLsbD_twoPow,BitVec.getLsbD_twoPow,decide_eq_true hp,decide_eq_true hn,
      Bool.true_and,Bool.true_and]
    simp only [eq_comm]
  · rw [if_neg (fun h => hbit (htest.mp h)),if_neg hbit]

/-- The bits of the translated flags. Bits 16 and 17 are lost when the flag that is
moved away from them is set as well. -/
theorem getLsbD_flagsP2n (pFlags : BitVec 32) (i : ℕ) :
    (flagsP2n pFlags).getLsbD i=
      if i=14 then pFlags.getLsbD 16
      else if i=15 then pFlags.getLsbD 17
      else if i=16 then pFlags.getLsbD 14 && !pFlags.getLsbD 16
      else if i=17 then pFlags.getLsbD 15 && !pFlags.getLsbD 17
      else pFlags.getLsbD i := by
  simp only [flagsP2n,oDirectoryPortable,oNofollowPortable,oDirectPortable,oLargefilePortable,
    oDirect,oLargefile,oDirectory,oNofollow]
  rw [getLsbD_moveFlag _ _ (by decide) (by decide),getLsbD_moveFlag _ _ (by decide) (by decide),
    getLsbD_moveFlag _ _ (by decide) (by decide),getLsbD_moveFlag _ _ (by decide) (by decide)]
  by_cases h14 : i=14
  · subst h14
    cases pFlags.getLsbD 14 <;> cases pFlags.getLsbD 15 <;> cases pFlags.getLsbD 16 <;>
      cases pFlags.getLsbD 17 <;> rfl
  by_cases h15 : i=15
  · subst h15
    cases pFlags.getLsbD 14 <;> cases pFlags.getLsbD 15 <;> cases pFlags.getLsbD 16 <;>
      cases pFlags.getLsbD 17 <;> rfl
  by_cases h16 : i=16
  · subst h16
    cases pFlags.getLsbD 14 <;> cases pFlags.getLsbD 15 <;> cases pFlags.getLsbD 16 <;>
      cases pFlags.getLsbD 17 <;> rfl
  by_cases h17 : i=17
  · subst h17
    cases pFlags.getLsbD 14 <;> cases pFlags.getLsbD 15 <;> cases pFlags.getLsbD 16 <;>
      cases pFlags.getLsbD 17 <;> rfl
  simp only [h14,h15,h16,h17,decide_false,Bool.xor_false,Bool.or_false,ite_self,if_false]

/-- Two flags of a word are lost on each other: `O_DIRECTORY` with `O_DIRECT`, or
`O_NOFOLLOW` with `O_LARGEFILE`. -/
def Clash (pFlags : BitVec 32) : Prop :=
  (Contains pFlags oDirectoryPortable ∧ Contains pFlags oDirectPortable) ∨
  (Contains pFlags oNofollowPortable ∧ Contains pFlags oLargefilePortable)

theorem clash_iff (pFlags : BitVec 32) :
    Clash pFlags ↔ (pFlags.getLsbD 14=true ∧ pFlags.getLsbD 16=true) ∨
      (pFlags.getLsbD 15=true ∧ pFlags.getLsbD 17=true) := by
  have hdirectory := contains_twoPow pFlags (show 14 < 32 by decide)
  have hnofollow := contains_twoPow pFlags (show 15 < 32 by decide)
  have hdirect := contains_twoPow pFlags (show 16 < 32 by decide)
  have hlargefile := contains_twoPow pFlags (show 17 < 32 by decide)
  exact or_congr (and_congr hdirectory hdirect) (and_congr hnofollow hlargefile)

theorem getLsbD_otherBits {i : ℕ} (hi : i < 32) :
    otherBits.getLsbD i=(decide (i≠14) && decide (i≠15) && decide (i≠16) && decide (i≠17)) := by
  have hall : ∀ i < 32, otherBits.getLsbD i=
      (decide (i≠14) && decide (i≠15) && decide (i≠16) && decide (i≠17)) := by decide
  exact hall i hi

theorem and_not_iff {x y : Bool} (h : ¬(x=true ∧ y=true)) : (x && !y)=true ↔ x=true := by
  cases y with
  | false => rw [Bool.not_false,Bool.and_true]
  | true =>
    rw [Bool.not_true,Bool.and_false]
    exact ⟨fun hfalse => absurd hfalse Bool.false_ne_true,fun hx => absurd ⟨hx,rfl⟩ h⟩

/-- A single word is translated well exactly if no flags clash in it. -/
theorem translates_iff (pFlags : BitVec 32) : Translates pFlags ↔ ¬Clash pFlags := by
  have hbit : ∀ i < 32, Contains (flagsP2n pFlags) (BitVec.twoPow 32 i) ↔
      (flagsP2n pFlags).getLsbD i=true := fun i hi => contains_twoPow _ hi
  have hportable : ∀ i < 32, Contains pFlags (BitVec.twoPow 32 i) ↔ pFlags.getLsbD i=true :=
    fun i hi => contains_twoPow _ hi
  have h14 : (flagsP2n pFlags).getLsbD 14=pFlags.getLsbD 16 :=
    getLsbD_flagsP2n pFlags _
  have h15 : (flagsP2n pFlags).getLsbD 15=pFlags.getLsbD 17 :=
    getLsbD_flagsP2n pFlags _
  have h16 : (flagsP2n pFlags).getLsbD 16=(pFlags.getLsbD 14 && !pFlags.getLsbD 16) :=
    getLsbD_flagsP2n pFlags _
  have h17 : (flagsP2n pFlags).getLsbD 17=(pFlags.getLsbD 15 && !pFlags.getLsbD 17) :=
    getLsbD_flagsP2n pFlags _
  rw [clash_iff]
  constructor
  · rintro h (⟨hdirectory,hdirect⟩ | ⟨hnofollow,hlargefile⟩)
    · have hboth := (hbit 16 (by decide)).mp
        (h.directory.mpr ((hportable 14 (by decide)).mpr hdirectory))
      rw [h16,hdirect,Bool.not_true,Bool.and_false] at hboth
      cases hboth
    · have hboth := (hbit 17 (by decide)).mp
        (h.nofollow.mpr ((hportable 15 (by decide)).mpr hnofollow))
      rw [h17,hlargefile,Bool.not_true,Bool.and_false] at hboth
      cases hboth
  · intro hclash
    refine ⟨?_,?_,?_,?_,BitVec.eq_of_getLsbD_eq (fun i hi => ?_)⟩
    · refine (hbit 16 (by decide)).trans (Iff.trans ?_ (hportable 14 (by decide)).symm)
      rw [h16]
      exact and_not_iff (fun hand => hclash (Or.inl hand))
    · refine (hbit 17 (by decide)).trans (Iff.trans ?_ (hportable 15 (by decide)).symm)
      rw [h17]
      exact and_not_iff (fun hand => hclash (Or.inr hand))
    · exact (hbit 14 (by decide)).trans
        ((Bool.eq_iff_iff.mp h14).trans (hportable 16 (by decide)).symm)
    · exact (hbit 15 (by decide)).trans
        ((Bool.eq_iff_iff.mp h15).trans (hportable 17 (by decide)).symm)
    · rw [BitVec.getLsbD_and,BitVec.getLsbD_and,getLsbD_otherBits hi,getLsbD_flagsP2n]
      split_ifs with h14 h15 h16 h17
      · rw [h14]
        simp
      · rw [h15]
        simp
      · rw [h16]
        simp
      · rw [h17]
        simp
      · rfl

/-- The translation of two words together is the translation of each of them, and both
words are translated flag by flag. -/
def TranslatesBitwise (a b : BitVec 32) : Prop :=
  flagsP2n (a ||| b)=flagsP2n a ||| flagsP2n b ∧ Translates a ∧ Translates b

/-- Two words are translated bit by bit exactly if the words together have neither
`O_DIRECTORY` with `O_DIRECT` nor `O_NOFOLLOW` with `O_LARGEFILE`. -/
theorem translatesBitwise_iff (a b : BitVec 32) : TranslatesBitwise a b ↔ ¬Clash (a ||| b) := by
  rw [TranslatesBitwise,translates_iff,translates_iff,clash_iff,clash_iff,clash_iff]
  simp only [BitVec.getLsbD_or]
  constructor
  · rintro ⟨hadd,ha,hb⟩ hclash
    have h16 := congrArg (fun bits => bits.getLsbD 16) hadd
    have h17 := congrArg (fun bits => bits.getLsbD 17) hadd
    simp only [BitVec.getLsbD_or] at h16 h17
    rw [getLsbD_flagsP2n,getLsbD_flagsP2n,
      getLsbD_flagsP2n] at h16 h17
    simp only [BitVec.getLsbD_or] at h16 h17
    revert h16 h17 ha hb hclash
    cases a.getLsbD 14 <;> cases b.getLsbD 14 <;> cases a.getLsbD 16 <;> cases b.getLsbD 16 <;>
      cases a.getLsbD 15 <;> cases b.getLsbD 15 <;> cases a.getLsbD 17 <;>
      cases b.getLsbD 17 <;> simp
  · intro hclash
    refine ⟨BitVec.eq_of_getLsbD_eq (fun i hi => ?_),fun ha => hclash ?_,fun hb => hclash ?_⟩
    · rw [BitVec.getLsbD_or,getLsbD_flagsP2n,getLsbD_flagsP2n,getLsbD_flagsP2n]
      simp only [BitVec.getLsbD_or]
      revert hclash
      split_ifs
      · exact fun _ => rfl
      · exact fun _ => rfl
      · cases a.getLsbD 14 <;> cases b.getLsbD 14 <;> cases a.getLsbD 16 <;>
          cases b.getLsbD 16 <;> simp
      · cases a.getLsbD 15 <;> cases b.getLsbD 15 <;> cases a.getLsbD 17 <;>
          cases b.getLsbD 17 <;> simp
      · exact fun _ => rfl
    · exact ha.imp (fun h => ⟨by rw [h.1,Bool.true_or],by rw [h.2,Bool.true_or]⟩)
        (fun h => ⟨by rw [h.1,Bool.true_or],by rw [h.2,Bool.true_or]⟩)
    · exact hb.imp (fun h => ⟨by rw [h.1,Bool.or_true],by rw [h.2,Bool.or_true]⟩)
        (fun h => ⟨by rw [h.1,Bool.or_true],by rw [h.2,Bool.or_true]⟩)

/-- A directory that is opened with `O_DIRECT` is translated without `O_DIRECTORY`. -/
theorem not_translatesBitwise_direct :
    flagsP2n (oDirectoryPortable ||| oDirectPortable)=oDirect ∧
    flagsP2n oDirectoryPortable ||| flagsP2n oDirectPortable=oDirectory ||| oDirect ∧
    ¬TranslatesBitwise oDirectoryPortable oDirectPortable := by
  refine ⟨by decide,by decide,fun h => ?_⟩
  exact absurd h.1 (by decide)

end AndroidPlatform.PortableFcntl
