import AndroidPlatform.DhcpMessage
import Mathlib.Tactic.IntervalCases

/-!
# Netmasks and prefix lengths

Three loops of libnetutils go between a netmask and the length of its prefix.
`fill_ip_info` shifts a mask that comes as text and refuses one that is no
prefix, `ipv4NetmaskToPrefixLength` counts the leading ones of any mask, and
`prefixLengthToIpv4Netmask` shifts a word of ones by what is missing to 32.
An `in_addr_t` is in network order, on a little-endian machine.
-/

namespace AndroidPlatform.NetmaskPrefixes

/-- `in_addr_t` and `uint32_t`. -/
abbrev Word := BitVec 32

/-- The byte of a word above the given number of bits. -/
def byteOf (x : Word) (i : ℕ) : Word := (x.extractLsb' i 8).setWidth 32

/-- `ntohl`, which is `htonl` too. -/
def ntohl (x : Word) : Word :=
  byteOf x 0<<<24 ||| byteOf x 8<<<16 ||| byteOf x 16<<<8 ||| byteOf x 24

/-- `INADDR_NONE` -/
def inaddrNone : Word := 0xffffffff#32

/-- The loop of `fill_ip_info` from round `p` on: the value of `p` behind it,
or nothing where the mask is invalid. -/
def maskLoop (p : ℕ) (mask : Word) : Option ℕ :=
  if p<32 then
    if mask=0#32 then some p
    else if mask &&& 0x80000000#32=0#32 then none
    else maskLoop (p+1) (mask<<<1)
  else some p
termination_by 32-p

/-- The mask part of `fill_ip_info`: the prefix length stored for the text of
the property, or nothing if the mask is invalid. -/
def fillIpInfoMask (inetAddr : String → Word) (propValue : String) : Option ℕ :=
  let mask := ntohl (inetAddr propValue)
  if mask=inaddrNone ∧ propValue≠"255.255.255.255" then none else maskLoop 0 mask

/-- `prefixLengthToIpv4Netmask` -/
def prefixLengthToIpv4Netmask (prefixLength : ℤ) : Word :=
  if prefixLength≤0 ∨ 32<prefixLength then 0#32
  else ntohl ((~~~0#32)<<<(32-prefixLength).toNat)

theorem and_top_eq_zero (m : Word) : m &&& 0x80000000#32=0#32 ↔ m.getMsbD 0=false := by
  have htop : ∀ i, (0x80000000#32 : Word).getMsbD i=decide (i=0) := by
    intro i
    by_cases hi : i<32
    · interval_cases i <;> rfl
    · rw [BitVec.getMsbD_of_ge _ _ (by omega)]
      exact (decide_eq_false (by omega)).symm
  constructor
  · intro h
    have hget : (m &&& 0x80000000#32).getMsbD 0=false := by rw [h,BitVec.getMsbD_zero]
    rw [BitVec.getMsbD_and,htop,decide_eq_true rfl,Bool.and_true] at hget
    exact hget
  · intro h
    refine BitVec.eq_of_getMsbD_eq fun i _ => ?_
    rw [BitVec.getMsbD_and,htop,BitVec.getMsbD_zero]
    by_cases hi : i=0
    · rw [hi,h,Bool.false_and]
    · rw [decide_eq_false hi,Bool.and_false]

/-- A word with its top bit shrinks when it is shifted. -/
theorem shiftLeft_lt {m : Word} (h : m &&& 0x80000000#32≠0#32) : (m<<<1).toNat < m.toNat := by
  rw [ne_eq,and_top_eq_zero,Bool.not_eq_false,←BitVec.msb_eq_getMsbD_zero,
    BitVec.msb_eq_decide,decide_eq_true_iff] at h
  have hlt := m.isLt
  rw [BitVec.toNat_shiftLeft,Nat.shiftLeft_eq]
  omega

/-- The loop of `ipv4NetmaskToPrefixLength`, on a word in host order. -/
def countLoop (prefixLength : ℕ) (m : Word) : ℕ :=
  if m &&& 0x80000000#32≠0#32 then countLoop (prefixLength+1) (m<<<1) else prefixLength
termination_by m.toNat
decreasing_by exact shiftLeft_lt ‹_›

/-- `ipv4NetmaskToPrefixLength` -/
def ipv4NetmaskToPrefixLength (mask : Word) : ℕ := countLoop 0 (ntohl mask)

/-- So many bits lead a word that are all one, and no more. -/
def LeadingOnes (m : Word) (k : ℕ) : Prop := (∀ i<k, m.getMsbD i=true) ∧ m.getMsbD k=false

/-- The one bits of a word are its first so many bits. -/
def OnesPrefix (m : Word) (k : ℕ) : Prop := k≤32 ∧ ∀ i, m.getMsbD i=decide (i<k)

theorem ntohl_ntohl (x : Word) : ntohl (ntohl x)=x := by
  refine BitVec.eq_of_getLsbD_eq fun i hi => ?_
  interval_cases i <;>
    simp only [ntohl,byteOf,BitVec.getLsbD_or,BitVec.getLsbD_shiftLeft,BitVec.getLsbD_setWidth,
      BitVec.getLsbD_extractLsb',Nat.reduceLT,Nat.reduceAdd,Nat.reduceSub,decide_true,
      decide_false,Bool.true_and,Bool.false_and,Bool.not_true,Bool.not_false,Bool.false_or,
      Bool.or_false,Bool.and_true]

theorem LeadingOnes.unique {m : Word} {j k : ℕ} (hj : LeadingOnes m j) (hk : LeadingOnes m k) :
    j=k := by
  have hnot : ∀ {j k}, LeadingOnes m j → LeadingOnes m k → ¬j<k := by
    intro j k hj hk hlt
    have hone := hk.1 j hlt
    rw [hj.2] at hone
    cases hone
  have hle := hnot hj hk
  have hge := hnot hk hj
  omega

/-- A prefix of ones is as long as the word has leading ones. -/
theorem OnesPrefix.leadingOnes {m : Word} {k : ℕ} (h : OnesPrefix m k) : LeadingOnes m k := by
  refine ⟨fun i hi => ?_,?_⟩
  · rw [h.2 i,decide_eq_true hi]
  · rw [h.2 k,decide_eq_false (lt_irrefl k)]

/-- The words of a first bit that is one and of a shifted word. -/
theorem leadingOnes_shift {m : Word} {k : ℕ} (htop : m.getMsbD 0=true) :
    LeadingOnes m (k+1) ↔ LeadingOnes (m<<<1) k := by
  rw [LeadingOnes,LeadingOnes,BitVec.getMsbD_shiftLeft]
  refine and_congr_left fun _ => ⟨fun h i hi => ?_,fun h i hi => ?_⟩
  · rw [BitVec.getMsbD_shiftLeft]
    exact h (i+1) (by omega)
  · cases i with
    | zero => exact htop
    | succ i =>
      have hnext := h i (by omega)
      rwa [BitVec.getMsbD_shiftLeft] at hnext

theorem onesPrefix_shift {m : Word} {k : ℕ} (htop : m.getMsbD 0=true) :
    OnesPrefix m (k+1) ↔ k<32 ∧ OnesPrefix (m<<<1) k := by
  rw [OnesPrefix,OnesPrefix]
  constructor
  · rintro ⟨hk,hbits⟩
    refine ⟨hk,by omega,fun i => ?_⟩
    rw [BitVec.getMsbD_shiftLeft,hbits (i+1)]
    exact decide_eq_decide.mpr (by omega)
  · rintro ⟨hk,-,hbits⟩
    refine ⟨hk,fun i => ?_⟩
    cases i with
    | zero => rw [htop,decide_eq_true (Nat.succ_pos k)]
    | succ i =>
      have hnext := hbits i
      rw [BitVec.getMsbD_shiftLeft] at hnext
      rw [hnext]
      exact decide_eq_decide.mpr (by omega)

/-- The counting loop adds the number of leading ones. -/
theorem countLoop_eq (n : ℕ) (m : Word) : ∃ k, countLoop n m=n+k ∧ LeadingOnes m k := by
  induction n,m using countLoop.induct with
  | case1 n m h ih =>
    obtain ⟨k,hcount,hones⟩ := ih
    have htop : m.getMsbD 0=true := by
      rw [ne_eq,and_top_eq_zero,Bool.not_eq_false] at h
      exact h
    rw [countLoop,if_pos h,hcount]
    exact ⟨k+1,by omega,(leadingOnes_shift htop).mpr hones⟩
  | case2 n m h =>
    rw [countLoop,if_neg h]
    refine ⟨0,rfl,fun i hi => absurd hi (Nat.not_lt_zero i),?_⟩
    exact (and_top_eq_zero m).mp (not_not.mp h)

/-- The loop of `fill_ip_info` on a word whose last bits have been shifted in:
it accepts exactly the prefixes, and counts them. -/
theorem maskLoop_eq_some (p : ℕ) (mask : Word) (hp : p≤32)
    (hlow : ∀ i, 32-p ≤ i → mask.getMsbD i=false) (q : ℕ) :
    maskLoop p mask=some q ↔ ∃ k, q=p+k ∧ OnesPrefix mask k := by
  induction p,mask using maskLoop.induct with
  | case1 p hlt =>
    rw [maskLoop,if_pos hlt,if_pos rfl]
    constructor
    · intro h
      cases h
      exact ⟨0,rfl,Nat.zero_le 32,fun i => by rw [BitVec.getMsbD_zero]; rfl⟩
    · rintro ⟨k,rfl,hones⟩
      cases k with
      | zero => rfl
      | succ k =>
        have hbit := hones.2 0
        rw [BitVec.getMsbD_zero,decide_eq_true (Nat.succ_pos k)] at hbit
        cases hbit
  | case2 p mask hlt hne htop =>
    rw [maskLoop,if_pos hlt,if_neg hne,if_pos htop]
    refine ⟨fun h => (by cases h),?_⟩
    rintro ⟨k,-,hones⟩
    have hzero : k=0 := by
      by_contra hk
      have hbit := hones.2 0
      rw [(and_top_eq_zero mask).mp htop,decide_eq_true (Nat.pos_of_ne_zero hk)] at hbit
      cases hbit
    refine absurd (BitVec.eq_of_getMsbD_eq fun i _ => ?_) hne
    rw [hones.2 i,hzero,BitVec.getMsbD_zero]
    rfl
  | case3 p mask hlt hne htop ih =>
    have hbit : mask.getMsbD 0=true := by
      rw [and_top_eq_zero,Bool.not_eq_false] at htop
      exact htop
    rw [maskLoop,if_pos hlt,if_neg hne,if_neg htop,ih (by omega) (fun i hi => by
      rw [BitVec.getMsbD_shiftLeft]
      exact hlow (i+1) (by omega))]
    constructor
    · rintro ⟨k,rfl,hones⟩
      have hk : k<32 := by
        rcases Nat.lt_or_ge k 32 with hk | hk
        · exact hk
        · have hlast := hones.2 31
          rw [BitVec.getMsbD_shiftLeft,hlow 32 (by omega),decide_eq_true (by omega)] at hlast
          cases hlast
      exact ⟨k+1,by omega,(onesPrefix_shift hbit).mpr ⟨hk,hones⟩⟩
    · rintro ⟨k,rfl,hones⟩
      cases k with
      | zero =>
        have hzero := hones.2 0
        rw [hbit] at hzero
        cases hzero
      | succ k => exact ⟨k,by omega,((onesPrefix_shift hbit).mp hones).2⟩
  | case4 p mask hge =>
    have hp32 : p=32 := by omega
    have hnone : ∀ i, mask.getMsbD i=false := fun i => hlow i (by omega)
    rw [maskLoop,if_neg hge]
    constructor
    · intro h
      cases h
      exact ⟨0,rfl,Nat.zero_le 32,fun i => by rw [hnone i]; rfl⟩
    · rintro ⟨k,rfl,hones⟩
      cases k with
      | zero => rfl
      | succ k =>
        have hbit := hones.2 0
        rw [hnone 0,decide_eq_true (Nat.succ_pos k)] at hbit
        cases hbit

/-- `prefixLengthToIpv4Netmask` makes the mask with a prefix. -/
theorem prefixLengthToIpv4Netmask_eq {m : Word} {p : ℕ} (h : OnesPrefix m p) :
    prefixLengthToIpv4Netmask p=ntohl m := by
  have hp := h.1
  rw [prefixLengthToIpv4Netmask]
  by_cases hzero : p=0
  · subst hzero
    have hm : m=0#32 := BitVec.eq_of_getMsbD_eq fun i _ => by
      rw [h.2 i,BitVec.getMsbD_zero]
      rfl
    rw [hm,if_pos (.inl le_rfl)]
    decide
  · have hshift : ((32:ℤ)-p).toNat=32-p := by omega
    rw [if_neg (by omega),hshift]
    congr 1
    refine BitVec.eq_of_getMsbD_eq fun i hi => ?_
    rw [h.2 i,BitVec.getMsbD_shiftLeft]
    by_cases hip : i<p
    · have hones : (~~~0#32 : Word)=BitVec.allOnes 32 := rfl
      rw [decide_eq_true hip,hones,BitVec.getMsbD_allOnes,decide_eq_true (by omega)]
    · rw [decide_eq_false hip,BitVec.getMsbD_of_ge _ _ (by omega)]

/-- The count of the leading ones in the decoder of `dhcpmsg` is the same loop. -/
theorem countLoop_eq_leadingOnes (k n : ℕ) (m : Word) (hlow : ∀ i, k ≤ i → m.getMsbD i=false) :
    countLoop n m=n+DhcpMessage.leadingOnes k m.toNat := by
  induction k generalizing n m with
  | zero =>
    rw [countLoop,if_neg (not_not.mpr ((and_top_eq_zero m).mpr (hlow 0 le_rfl)))]
    rfl
  | succ k ih =>
    have htop : m &&& 0x80000000#32≠0#32 ↔ 2^31 ≤ m.toNat := by
      rw [ne_eq,and_top_eq_zero,Bool.not_eq_false,←BitVec.msb_eq_getMsbD_zero,
        BitVec.msb_eq_decide,decide_eq_true_iff]
    rw [countLoop,DhcpMessage.leadingOnes]
    by_cases h : 2^31 ≤ m.toNat
    · have hnat : (m<<<1).toNat=2*m.toNat%2^32 := by
        rw [BitVec.toNat_shiftLeft,Nat.shiftLeft_eq,pow_one,Nat.mul_comm]
      rw [if_pos (htop.mpr h),if_pos h,ih (n+1) (m<<<1) (fun i hi => by
        rw [BitVec.getMsbD_shiftLeft]
        exact hlow (i+1) (by omega)),hnat]
      omega
    · rw [if_neg (fun hb => h (htop.mp hb)),if_neg h]
      rfl

/-- The prefix length that a DHCP client decodes from the bytes of a mask. -/
theorem decoded_prefixLength (x : List UInt8) : DhcpMessage.ipv4NetmaskToPrefixLength x=
    countLoop 0 (WireBytes.ntohlAt x 0).toBitVec := by
  rw [countLoop_eq_leadingOnes 32 0 _ (fun i hi => BitVec.getMsbD_of_ge _ _ hi),Nat.zero_add]
  rfl

/-- **Masks and prefixes.** Of the masks that are no error of `inet_addr` the
loop of `fill_ip_info` accepts the prefixes of ones, with the length that the
other two functions give and take. The count ends on any word. -/
theorem fillIpInfoMask_iff (inetAddr : String → Word) (propValue : String) :
    (∀ p, fillIpInfoMask inetAddr propValue=some p ↔
      OnesPrefix (ntohl (inetAddr propValue)) p ∧
        ¬(ntohl (inetAddr propValue)=inaddrNone ∧ propValue≠"255.255.255.255")) ∧
    (∀ p, fillIpInfoMask inetAddr propValue=some p →
      p=ipv4NetmaskToPrefixLength (inetAddr propValue) ∧
        prefixLengthToIpv4Netmask p=inetAddr propValue) ∧
    ∀ m, LeadingOnes (ntohl m) (ipv4NetmaskToPrefixLength m) := by
  have hcount : ∀ m, LeadingOnes (ntohl m) (ipv4NetmaskToPrefixLength m) := by
    intro m
    obtain ⟨k,hcount,hones⟩ := countLoop_eq 0 (ntohl m)
    rw [ipv4NetmaskToPrefixLength,hcount,Nat.zero_add]
    exact hones
  have haccept : ∀ p, fillIpInfoMask inetAddr propValue=some p ↔
      OnesPrefix (ntohl (inetAddr propValue)) p ∧
        ¬(ntohl (inetAddr propValue)=inaddrNone ∧ propValue≠"255.255.255.255") := by
    intro p
    rw [fillIpInfoMask]
    by_cases hnone : ntohl (inetAddr propValue)=inaddrNone ∧ propValue≠"255.255.255.255"
    · rw [if_pos hnone]
      exact ⟨fun h => (by cases h),fun h => absurd hnone h.2⟩
    · rw [if_neg hnone,maskLoop_eq_some 0 _ (Nat.zero_le 32)
        (fun i hi => BitVec.getMsbD_of_ge _ _ hi)]
      constructor
      · rintro ⟨k,rfl,hones⟩
        rw [Nat.zero_add]
        exact ⟨hones,hnone⟩
      · exact fun h => ⟨p,(Nat.zero_add p).symm,h.1⟩
  refine ⟨haccept,fun p hp => ?_,hcount⟩
  have hones := ((haccept p).mp hp).1
  refine ⟨hones.leadingOnes.unique (hcount _),?_⟩
  rw [prefixLengthToIpv4Netmask_eq hones,ntohl_ntohl]

/-- The mask 255.255.255.0 has a prefix of 24 bits. -/
theorem fillIpInfoMask_24 :
    24=ipv4NetmaskToPrefixLength 0x00ffffff#32 ∧
      prefixLengthToIpv4Netmask (24:ℕ)=0x00ffffff#32 :=
  (fillIpInfoMask_iff (fun _ => 0x00ffffff#32) "255.255.255.0").2.1 24 (by decide +kernel)

end AndroidPlatform.NetmaskPrefixes
