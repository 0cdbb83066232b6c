import AndroidPlatform.DhcpPacket
import Mathlib.Data.Nat.ModEq

/-!
# The sums of the packet checksum

The checksum of libnetutils adds the words of a buffer to a running sum and
folds the carries in afterwards. The sums that the function computes on the
way are listed here as they are before they are cut to thirty-two bits. The
value returned is the same however a buffer is divided into even parts, so a
header is verified by the sum over all its bytes with the check field filled.
-/

namespace AndroidPlatform.ChecksumFolding

open OnesComplement WireBytes DhcpPacket

/-- The sums of the word loop of `checksum`. -/
def loopSums (sum : ℕ) : List UInt8 → List ℕ
  | [] => []
  | [b] => [sum+b.toNat]
  | lo::hi::tail =>
    (sum+(lo.toNat+256*hi.toNat))::loopSums ((sum+(lo.toNat+256*hi.toNat))%2^32) tail

/-- The sums of its carry loop. -/
def foldSums (sum : ℕ) : List ℕ :=
  if sum/65536=0 then [] else (sum%65536+sum/65536)::foldSums (sum%65536+sum/65536)
termination_by sum
decreasing_by omega

/-- All sums that `checksum` computes, before they are cut to `uint32_t`. -/
def checksumSums (buffer : List UInt8) (startsum : ℕ) : List ℕ :=
  loopSums startsum buffer++foldSums (sumLoop startsum buffer)

theorem loopSums_le {sum n : ℕ} {buffer : List UInt8} (h : sum+wordSum buffer<2^32)
    (hn : n∈loopSums sum buffer) : n ≤ sum+wordSum buffer := by
  induction buffer using wordSum.induct generalizing sum with
  | case1 => exact absurd hn List.not_mem_nil
  | case2 b =>
    rw [wordSum_singleton,List.mem_singleton.mp hn]
  | case3 lo hi tail ih =>
    rw [wordSum_cons_cons] at h ⊢
    rw [loopSums,Nat.mod_eq_of_lt (by omega)] at hn
    rcases List.mem_cons.mp hn with rfl | hn
    · omega
    · have hle := ih (by omega) hn
      omega

theorem foldSums_le {sum n : ℕ} (hn : n∈foldSums sum) : n ≤ sum := by
  induction sum using Nat.strong_induction_on with
  | _ sum ih =>
    rw [foldSums] at hn
    by_cases hzero : sum/65536=0
    · rw [if_pos hzero] at hn
      exact absurd hn List.not_mem_nil
    · rw [if_neg hzero] at hn
      rcases List.mem_cons.mp hn with rfl | hn
      · omega
      · have hle := ih _ (by omega) hn
        omega

/-- No sum is cut while the sum of all words fits thirty-two bits. -/
theorem checksumSums_lt {buffer : List UInt8} {startsum n : ℕ}
    (h : startsum+wordSum buffer<2^32) (hn : n∈checksumSums buffer startsum) : n<2^32 := by
  rcases List.mem_append.mp hn with hn | hn
  · exact Nat.lt_of_le_of_lt (loopSums_le h hn) h
  · rw [sumLoop_eq h] at hn
    exact Nat.lt_of_le_of_lt (foldSums_le hn) h

/-- The words of an even part and of the rest. -/
theorem wordSum_append {a : List UInt8} (ha : a.length%2=0) (b : List UInt8) :
    wordSum (a++b)=wordSum a+wordSum b := by
  induction a using wordSum.induct with
  | case1 => rw [List.nil_append,wordSum_nil,Nat.zero_add]
  | case2 x =>
    rw [List.length_singleton] at ha
    omega
  | case3 lo hi tail ih =>
    rw [List.length_cons,List.length_cons] at ha
    rw [List.cons_append,List.cons_append,wordSum_cons_cons,wordSum_cons_cons,ih (by omega)]
    omega

theorem wordSum_eq_zero {buffer : List UInt8} (h : wordSum buffer=0) : ∀ b∈buffer, b=0 := by
  induction buffer using wordSum.induct with
  | case1 => exact fun b hb => absurd hb List.not_mem_nil
  | case2 x =>
    intro b hb
    rw [List.mem_singleton.mp hb]
    exact UInt8.toNat_inj.mp h
  | case3 lo hi tail ih =>
    rw [wordSum_cons_cons] at h
    intro b hb
    rcases List.mem_cons.mp hb with rfl | hb
    · exact UInt8.toNat_inj.mp (show b.toNat=0 by omega)
    · rcases List.mem_cons.mp hb with rfl | hb
      · exact UInt8.toNat_inj.mp (show b.toNat=0 by omega)
      · exact ih (by omega) b hb

theorem canonical_modEq (n : ℕ) : canonical n≡n [MOD 65535] := by
  rw [canonical,Nat.ModEq]
  split
  · omega
  · omega

theorem canonical_eq_zero {n : ℕ} (h : canonical n=0) : n=0 := by
  rw [canonical] at h
  split at h
  · assumption
  · omega

/-- The words of a raw store of sixteen bits. -/
theorem wordSum_raw16 {n : ℕ} (hn : n≤65535) : wordSum (raw16 n)=n := by
  have hlo : (UInt8.ofNat n).toNat=n%256 := UInt8.toNat_ofNat'
  have hhi : (UInt8.ofNat (n/256)).toNat=n/256%256 := UInt8.toNat_ofNat'
  rw [raw16,wordSum_cons_cons,wordSum_nil,hlo,hhi]
  omega

/-- A header with a check field behind an even number of bytes. -/
def header (before : List UInt8) (check : ℕ) (after : List UInt8) : List UInt8 :=
  before++(raw16 check++after)

theorem wordSum_header {before after : List UInt8} {check : ℕ} (hbefore : before.length%2=0)
    (hcheck : check≤65535) :
    wordSum (header before check after)=wordSum before+check+wordSum after := by
  have heven : (raw16 check).length%2=0 := by rw [raw16_length]
  rw [header,wordSum_append hbefore,wordSum_append heven,wordSum_raw16 hcheck,Nat.add_assoc]

/-- A part that has been summed is a start for the rest. -/
theorem checksum_append {a b : List UInt8} {startsum : ℕ} (ha : a.length≤65535)
    (hb : b.length≤65535) (heven : a.length%2=0) (hs : startsum≤65535) :
    checksum b (checksum a startsum)=checksum (a++b) startsum := by
  have hwa := wordSum_le a
  have hwb := wordSum_le b
  have hsum : startsum+wordSum (a++b)<2^32 := by
    rw [wordSum_append heven]
    omega
  have hwhole : checksum (a++b) startsum=canonical (startsum+wordSum (a++b)) := by
    rw [checksum,sumLoop_eq hsum,foldUpper_eq]
  rw [checksum_eq ha hs,checksum_canonical hb,hwhole,wordSum_append heven,Nat.add_assoc]

/-- A header with its computed check field verifies. -/
theorem header_verifies {before after : List UInt8} (hbefore : before.length%2=0)
    (hlen : ∀ check, (header before check after).length≤65535) :
    finishSum (checksum (header before (finishSum (checksum (header before 0 after) 0)) after) 0)=0 := by
  have hle := canonical_le (wordSum before+0+wordSum after)
  rw [checksum_eq (hlen 0) (Nat.zero_le _),Nat.zero_add,finishSum_canonical,
    checksum_eq (hlen _) (Nat.zero_le _),Nat.zero_add,finishSum_canonical,
    wordSum_header hbefore (Nat.zero_le _),wordSum_header hbefore (Nat.sub_le _ _)]
  by_cases hzero : wordSum before+0+wordSum after=0
  · have hsum : wordSum before+(65535-canonical (wordSum before+0+wordSum after))+
        wordSum after=65535 := by
      rw [hzero,canonical_zero]
      omega
    rw [hsum]
    rfl
  · have hfull := canonical_complement hzero
    have hsum : wordSum before+(65535-canonical (wordSum before+0+wordSum after))+
        wordSum after=wordSum before+0+wordSum after+
          (65535-canonical (wordSum before+0+wordSum after)) := by
      omega
    rw [hsum,hfull]

/-- **The checksum.** No sum wraps around, the value is a word with the right
residue and zero for zeros only, a buffer may be summed in even parts, and a
header filled with its own checksum verifies. -/
theorem checksum_sound :
    (∀ (buffer : List UInt8) (startsum : ℕ), buffer.length≤65535 → startsum≤0xffff →
      (∀ n∈checksumSums buffer startsum, n<2^32) ∧ checksum buffer startsum≤0xffff ∧
      checksum buffer startsum≡startsum+wordSum buffer [MOD 65535] ∧
      (checksum buffer startsum=0 → startsum=0 ∧ ∀ b∈buffer, b=0)) ∧
    (∀ (a b : List UInt8) (startsum : ℕ), a.length≤65535 → b.length≤65535 → a.length%2=0 →
      startsum≤0xffff → checksum b (checksum a startsum)=checksum (a++b) startsum) ∧
    ∀ before after : List UInt8, before.length%2=0 → before.length+2+after.length≤65535 →
      finishSum (checksum
        (header before (finishSum (checksum (header before 0 after) 0)) after) 0)=0 := by
  refine ⟨fun buffer startsum hb hs => ?_,fun a b startsum ha hb heven hs =>
    checksum_append ha hb heven hs,fun before after hbefore hlen => ?_⟩
  · have hw := wordSum_le buffer
    rw [checksum_eq hb hs]
    refine ⟨fun n hn => checksumSums_lt (by omega) hn,canonical_le _,canonical_modEq _,
      fun hzero => ?_⟩
    have hsum := canonical_eq_zero hzero
    exact ⟨by omega,wordSum_eq_zero (by omega)⟩
  · refine header_verifies hbefore fun check => ?_
    rw [header,List.length_append,List.length_append,raw16,List.length_cons,List.length_cons,
      List.length_nil]
    omega

/-- Seven bytes, summed whole and in parts, and a header of six bytes. -/
theorem checksum_sound_bytes :
    (∀ n∈checksumSums [1,2,3,4,5,6,7] 0xffff, n<2^32) ∧
    checksum [5,6,7] (checksum [1,2,3,4] 0xffff)=checksum ([1,2,3,4]++[5,6,7]) 0xffff ∧
    finishSum (checksum
      (header [0x45,0] (finishSum (checksum (header [0x45,0] 0 [1,2]) 0)) [1,2]) 0)=0 := by
  obtain ⟨hsum,happend,hheader⟩ := checksum_sound
  exact ⟨(hsum [1,2,3,4,5,6,7] 0xffff (by decide) (by decide)).1,
    happend [1,2,3,4] [5,6,7] 0xffff (by decide) (by decide) (by decide) (by decide),
    hheader [0x45,0] [1,2] (by decide) (by decide)⟩

end AndroidPlatform.ChecksumFolding
