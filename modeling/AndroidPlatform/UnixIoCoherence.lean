import AndroidPlatform.UnixIo
import Mathlib.Algebra.Group.Nat.Defs

/-!
# What the requests read and what a flush leaves

The cache is transparent: whatever was requested before, a read returns what
the last writes put there, and after a flush the device holds it. Both rest on
the coherence of the entries in use with the device.
-/

namespace AndroidPlatform.UnixIo

open WriteBackLines Function

/-- An entry in use as a line over the bytes of the device. -/
def lineOf (c : Channel) (entry : UnixCache) : Option (Line UInt8) :=
  if entry.inUse then some ⟨c.location entry.block,entry.buf,entry.dirty⟩ else none

/-- The lines of the cache. -/
def lines (c : Channel) (slot : Slot) : Option (Line UInt8) := lineOf c (c.cache slot)

/-- The entries of a channel and its device hold a store. -/
structure Keeps (store : ℕ → UInt8) (c : Channel) : Prop where
  coherent : Coherent store c.dev.byte (lines c)
  /-- The buffers have the size of a block. -/
  sized : ∀ s, (c.cache s).buf.length=c.blockSize
  /-- A write-through channel has no dirty entry. -/
  through : c.writethrough=true → ∀ s, (c.cache s).inUse=true → (c.cache s).dirty=false
  /-- What is still to be written fits on the device. -/
  fits : ∀ s, (c.cache s).inUse=true → (c.cache s).dirty=true →
    c.location (c.cache s).block+c.blockSize ≤ c.dev.limit
  /-- No block has two entries. -/
  single : ∀ s t, (c.cache s).inUse=true → (c.cache t).inUse=true →
    (c.cache s).block=(c.cache t).block → s=t

/-- What no request but the one for another block size changes. -/
structure Frame (c d : Channel) : Prop where
  blockSize : d.blockSize=c.blockSize
  writethrough : d.writethrough=c.writethrough
  offset : d.offset=c.offset
  limit : d.dev.limit=c.dev.limit
  length : c.dev.length ≤ d.dev.length

theorem Frame.refl (c : Channel) : Frame c c := ⟨rfl,rfl,rfl,rfl,le_rfl⟩

theorem Frame.trans {c d e : Channel} (h : Frame c d) (h' : Frame d e) : Frame c e :=
  ⟨h'.blockSize.trans h.blockSize,h'.writethrough.trans h.writethrough,
    h'.offset.trans h.offset,h'.limit.trans h.limit,h.length.trans h'.length⟩

theorem Frame.location {c d : Channel} (h : Frame c d) (block : ℕ) :
    d.location block=c.location block := by
  rw [Channel.location,Channel.location,h.blockSize,h.offset]

theorem Frame.setEntry (c : Channel) (slot : Slot) (entry : UnixCache) :
    Frame c (c.setEntry slot entry) := ⟨rfl,rfl,rfl,rfl,le_rfl⟩

theorem lines_of_inUse {c : Channel} {s : Slot} (h : (c.cache s).inUse=true) :
    lines c s=some ⟨c.location (c.cache s).block,(c.cache s).buf,(c.cache s).dirty⟩ :=
  if_pos h

theorem lines_eq_some {c : Channel} {s : Slot} {line : Line UInt8} (h : lines c s=some line) :
    (c.cache s).inUse=true ∧
      line=⟨c.location (c.cache s).block,(c.cache s).buf,(c.cache s).dirty⟩ := by
  rw [lines,lineOf] at h
  split at h
  · next hin => exact ⟨hin,(Option.some.inj h).symm⟩
  · cases h

/-- Setting an entry sets its line. -/
theorem lines_setEntry (c : Channel) (slot : Slot) (entry : UnixCache) :
    lines (c.setEntry slot entry)=update (lines c) slot (lineOf c entry) := by
  funext s
  by_cases hs : s=slot
  · subst hs
    simp only [lines,Channel.setEntry,update_self]
    rfl
  · simp only [lines,Channel.setEntry,update_of_ne hs]
    rfl

theorem location_add (c : Channel) (block n : ℕ) :
    c.location (block+n)=c.location block+n*c.blockSize := by
  simp only [Channel.location,Nat.add_mul]
  omega

theorem location_succ (c : Channel) (block : ℕ) :
    c.location (block+1)=c.location block+c.blockSize := by
  rw [location_add,Nat.one_mul]

/-! ### The device -/

theorem transferSize_natCast (blockSize n : ℕ) : transferSize blockSize n=n*blockSize := by
  rw [transferSize,if_neg (by omega),Int.toNat_natCast]

theorem transferSize_one (blockSize : ℕ) : transferSize blockSize 1=blockSize :=
  (transferSize_natCast blockSize 1).trans (Nat.one_mul blockSize)

/-- A write that ends before the limit is done in full. -/
theorem accepted_of_le {d : Device} {location : ℕ} {data : List UInt8}
    (h : location+data.length ≤ d.limit) : d.accepted location data=data :=
  List.take_of_length_le (by omega)

theorem length_write_le (d : Device) (location : ℕ) (data : List UInt8) :
    d.length ≤ (d.write location data).length := by
  simp only [Device.write]
  split
  · exact le_rfl
  · exact Nat.le_max_left _ _

/-- A transfer of a size within the limit writes its bytes. -/
theorem rawWriteBlk_eq {c : Channel} {block : ℕ} {count : ℤ} {data : List UInt8}
    (hdata : data.length=transferSize c.blockSize count)
    (hfits : c.location block+data.length ≤ c.dev.limit) :
    rawWriteBlk c block count data=
      ({ c with dev:=c.dev.write (c.location block) data },none) := by
  have htake : data.take (transferSize c.blockSize count)=data :=
    List.take_of_length_le (Nat.le_of_eq hdata)
  rw [rawWriteBlk]
  simp only [htake]
  rw [if_neg (by omega),accepted_of_le hfits,if_pos hdata]

theorem write_byte {d : Device} {location : ℕ} {data : List UInt8}
    (h : location+data.length ≤ d.limit) :
    (d.write location data).byte=patch d.byte location data := by
  simp only [Device.write,accepted_of_le h]

theorem Frame.write (c : Channel) (location : ℕ) (data : List UInt8) :
    Frame c { c with dev:=c.dev.write location data } :=
  ⟨rfl,rfl,rfl,rfl,length_write_le _ _ _⟩

/-- A read that succeeds returns the bytes of the device. -/
theorem rawReadBlk_ok {c : Channel} {block : ℕ} {count : ℤ} {data : List UInt8}
    (h : rawReadBlk c block count=(none,data)) :
    data=slice c.dev.byte (c.location block) (transferSize c.blockSize count) := by
  rw [rawReadBlk] at h
  dsimp only at h
  split at h
  · cases h
  · split at h
    · next hlength =>
      rw [Device.read,length_slice] at hlength
      rw [Device.read,hlength] at h
      exact (Prod.mk.inj h).2.symm
    · cases h

/-- A read before the end of the device succeeds. -/
theorem rawReadBlk_eq {c : Channel} {block : ℕ} {count : ℤ}
    (h : c.location block+transferSize c.blockSize count ≤ c.dev.length) :
    rawReadBlk c block count=
      (none,slice c.dev.byte (c.location block) (transferSize c.blockSize count)) := by
  have hlimit := c.dev.length_le
  have hmin : min (transferSize c.blockSize count) (c.dev.length-c.location block)=
      transferSize c.blockSize count := by omega
  rw [rawReadBlk,if_neg (by omega)]
  simp only [Device.read,hmin,length_slice,if_true]

/-! ### The entries -/

variable {store : ℕ → UInt8} {c : Channel}

/-- A block outside a run of blocks shares no byte with it. -/
theorem covers_apart {blockSize offset a b n i : ℕ} (hne : ∀ j, j<n → a≠b+j)
    (ha : a*blockSize+offset ≤ i ∧ i < a*blockSize+offset+blockSize) :
    ¬(b*blockSize+offset ≤ i ∧ i < b*blockSize+offset+n*blockSize) := by
  rintro ⟨hb,hb'⟩
  rcases Nat.lt_or_ge a b with hlt | hge
  · have h := Nat.mul_le_mul_right blockSize hlt
    rw [Nat.succ_mul] at h
    omega
  · have hend : b+n ≤ a := by
      by_contra hlt
      exact hne (a-b) (by omega) (by omega)
    have h := Nat.mul_le_mul_right blockSize hend
    rw [Nat.add_mul] at h
    omega

/-- One entry is set, with the device it is backed by. -/
theorem Keeps.entry {after : ℕ → UInt8} (h : Keeps store c) {dev : Device} (slot : Slot)
    (entry : UnixCache) (time : ℕ) (hlimit : dev.limit=c.dev.limit)
    (hcoherent : Coherent after dev.byte (update (lines c) slot (lineOf c entry)))
    (hsized : entry.buf.length=c.blockSize)
    (hthrough : c.writethrough=true → entry.inUse=true → entry.dirty=false)
    (hfits : entry.inUse=true → entry.dirty=true →
      c.location entry.block+c.blockSize ≤ c.dev.limit)
    (hsingle : entry.inUse=true → ∀ s, s≠slot → (c.cache s).inUse=true →
      (c.cache s).block≠entry.block) :
    Keeps after { c with cache:=update c.cache slot entry,accessTime:=time,dev:=dev } := by
  have hlines : lines { c with cache:=update c.cache slot entry,accessTime:=time,dev:=dev }=
      update (lines c) slot (lineOf c entry) := lines_setEntry c slot entry
  refine ⟨hlines ▸ hcoherent,fun s => ?_,fun hw s => ?_,fun s => ?_,fun s t => ?_⟩
  · by_cases hs : s=slot
    · simpa only [hs,update_self] using hsized
    · simpa only [update_of_ne hs] using h.sized s
  · by_cases hs : s=slot
    · simpa only [hs,update_self] using hthrough hw
    · simpa only [update_of_ne hs] using h.through hw s
  · by_cases hs : s=slot
    · simp only [hs,update_self,hlimit]
      exact hfits
    · simp only [update_of_ne hs,hlimit]
      exact h.fits s
  · by_cases hs : s=slot <;> by_cases ht : t=slot
    · exact fun _ _ _ => hs.trans ht.symm
    · simp only [hs,update_self,update_of_ne ht]
      exact fun hin hin' he => absurd he.symm (hsingle hin t ht hin')
    · simp only [ht,update_self,update_of_ne hs]
      exact fun hin hin' he => absurd he (hsingle hin' s hs hin)
    · simpa only [update_of_ne hs,update_of_ne ht] using h.single s t

/-- An entry that is found becomes the latest, and holds the block. -/
theorem Keeps.touch (h : Keeps store c) (slot : Slot) (time : ℕ) :
    Keeps store { c.setEntry slot { c.cache slot with accessTime:=time } with
      accessTime:=time } := by
  refine h.entry slot _ time rfl ?_ (h.sized slot) (fun hw => h.through hw slot) (h.fits slot)
    fun hin s hs hin' he => hs (h.single s slot hin' hin he)
  have hsame : update (lines c) slot (lineOf c { c.cache slot with accessTime:=time })=lines c :=
    update_eq_self slot (lines c)
  rw [hsame]
  exact h.coherent

/-- What a search through some entries may answer. -/
def Lookup.Right (cache : Slot → UnixCache) (block : ℕ) (left : List Slot) : Lookup → Prop
  | .found slot => (cache slot).inUse=true ∧ (cache slot).block=block
  | .missed _ => ∀ s∈left, (cache s).inUse=true → (cache s).block≠block

theorem Lookup.Right.cons {cache : Slot → UnixCache} {block : ℕ} {left : List Slot}
    {result : Lookup} (h : result.Right cache block left) {slot : Slot}
    (hslot : (cache slot).inUse=true → (cache slot).block≠block) :
    result.Right cache block (slot::left) := by
  cases result with
  | found other => exact h
  | missed eldest =>
    intro s hs
    rcases List.mem_cons.mp hs with rfl | hs
    · exact hslot
    · exact h s hs

/-- The loop of `find_cached_block` finds the entry of the block, or there is
none. -/
theorem findLoop_right (cache : Slot → UnixCache) (block : ℕ) (left : List Slot)
    (unused oldest : Option Slot) :
    (findLoop cache block unused oldest left).Right cache block left := by
  induction left generalizing unused oldest with
  | nil => exact fun s hs => absurd hs List.not_mem_nil
  | cons slot rest ih =>
    rw [findLoop]
    split
    · next hunused =>
      apply (ih _ _).cons
      intro hin
      rw [hunused] at hin
      cases hin
    · next hused =>
      split
      · next hblock => exact ⟨by simpa using hused,hblock⟩
      · next hblock => exact (ih _ _).cons fun _ => hblock

/-- Only access times differ. -/
structure Touched (c d : Channel) : Prop where
  frame : Frame c d
  dev : d.dev=c.dev
  inUse : ∀ s, (d.cache s).inUse=(c.cache s).inUse
  block : ∀ s, (d.cache s).block=(c.cache s).block

theorem Touched.refl (c : Channel) : Touched c c := ⟨.refl c,rfl,fun _ => rfl,fun _ => rfl⟩

theorem touched_setEntry (c : Channel) (slot : Slot) (time : ℕ) :
    Touched c { c.setEntry slot { c.cache slot with accessTime:=time } with
      accessTime:=time } := by
  refine ⟨⟨rfl,rfl,rfl,rfl,le_rfl⟩,rfl,fun s => ?_,fun s => ?_⟩
  all_goals
    by_cases hs : s=slot
    · simp only [Channel.setEntry,hs,update_self]
    · simp only [Channel.setEntry,update_of_ne hs]

/-- `find_cached_block` keeps the store. Either it finds the block in the cache
or no entry has it. -/
theorem Keeps.findCachedBlock (h : Keeps store c) (block : ℕ) :
    (∃ slot d, findCachedBlock c block=(d,.found slot) ∧ Keeps store d ∧ Touched c d ∧
      (d.cache slot).inUse=true ∧ (d.cache slot).block=block) ∨
    ∃ eldest, findCachedBlock c block=(c,.missed eldest) ∧
      ∀ s, (c.cache s).inUse=true → (c.cache s).block≠block := by
  have hright := findLoop_right c.cache block (List.finRange 8) none none
  rw [UnixIo.findCachedBlock]
  generalize findLoop c.cache block none none (List.finRange 8)=result at hright
  cases result with
  | found slot =>
    refine .inl ⟨slot,_,rfl,h.touch slot _,touched_setEntry c slot _,?_⟩
    simp only [Channel.setEntry,update_self]
    exact hright
  | missed eldest =>
    exact .inr ⟨eldest,rfl,fun s => hright s (List.mem_finRange s)⟩

/-- An entry in use holds the bytes of its block. -/
theorem Keeps.buf_eq (h : Keeps store c) {slot : Slot} (hin : (c.cache slot).inUse=true) :
    (c.cache slot).buf=slice store (c.location (c.cache slot).block) c.blockSize := by
  have hholds := h.coherent.holds slot _ (lines_of_inUse hin)
  rw [h.sized slot] at hholds
  exact hholds.symm

/-- No entry has one of some blocks. -/
def Missed (c : Channel) (block n : ℕ) : Prop :=
  ∀ s, (c.cache s).inUse=true → ∀ j, j<n → (c.cache s).block≠block+j

/-- Blocks without an entry share no byte with the cache. -/
theorem Keeps.not_covers (h : Keeps store c) {block n : ℕ} (hmissed : Missed c block n)
    {s : Slot} {line : Line UInt8} (hs : lines c s=some line) {i : ℕ} (hi : line.Covers i) :
    ¬(c.location block ≤ i ∧ i < c.location block+n*c.blockSize) := by
  obtain ⟨hin,rfl⟩ := lines_eq_some hs
  refine covers_apart (hmissed s hin) ⟨hi.1,?_⟩
  have hend := hi.2
  rw [h.sized s] at hend
  exact hend

theorem Keeps.not_covers_one (h : Keeps store c) {block : ℕ}
    (hmissed : ∀ s, (c.cache s).inUse=true → (c.cache s).block≠block) {s : Slot}
    {line : Line UInt8} (hs : lines c s=some line) {i : ℕ} (hi : line.Covers i) :
    ¬(c.location block ≤ i ∧ i < c.location block+c.blockSize) := by
  have hone : Missed c block 1 := fun s hin j hj => by
    rw [Nat.lt_one_iff.mp hj]
    exact hmissed s hin
  have h := h.not_covers hone hs hi
  rwa [Nat.one_mul] at h

/-- What `reuse_cache` leaves to be filled: nothing is lost, and the entry is
free for another block. -/
structure Reused (store : ℕ → UInt8) (c d : Channel) (slot : Slot) (block : ℕ) : Prop where
  frame : Frame c d
  coherent : Coherent store d.dev.byte (update (lines c) slot none)
  others : d={ c with
    cache:=update c.cache slot (d.cache slot),accessTime:=d.accessTime,dev:=d.dev }
  inUse : (d.cache slot).inUse=true
  dirty : (d.cache slot).dirty=false
  block : (d.cache slot).block=block
  sized : (d.cache slot).buf.length=c.blockSize

/-- A dirty entry may be written: it has the size of a block, and fits. -/
theorem Keeps.writable (h : Keeps store c) {slot : Slot} (hin : (c.cache slot).inUse=true)
    (hdirty : (c.cache slot).dirty=true) :
    (c.cache slot).buf.length=transferSize c.blockSize 1 ∧
      c.location (c.cache slot).block+(c.cache slot).buf.length ≤ c.dev.limit := by
  rw [transferSize_one,h.sized slot]
  exact ⟨rfl,h.fits slot hin hdirty⟩

theorem Keeps.reuseCache (h : Keeps store c) (slot : Slot) (block : ℕ) :
    Reused store c (reuseCache c slot block) slot block := by
  by_cases hback : ((c.cache slot).dirty && (c.cache slot).inUse)=true
  · obtain ⟨hdirty,hin⟩ := Bool.and_eq_true_iff.mp hback
    obtain ⟨hsize,hfits⟩ := h.writable hin hdirty
    have hwritten := rawWriteBlk_eq hsize hfits
    have hco := (h.coherent.writeBack (lines_of_inUse hin)).drop (k:=slot)
      (by rw [update_self]; rintro line ⟨⟩; rfl)
    rw [update_idem] at hco
    rw [UnixIo.reuseCache]
    simp only [hback,if_true,hwritten,Channel.setEntry]
    refine ⟨(Frame.write c _ _).trans ⟨rfl,rfl,rfl,rfl,le_rfl⟩,?_,?_,?_,?_,?_,?_⟩
    · simp only [write_byte hfits]
      exact hco
    all_goals simp only [update_self]
    exact h.sized slot
  · have hclean : ∀ line, lines c slot=some line → line.dirty=false := by
      intro line hline
      obtain ⟨hin,rfl⟩ := lines_eq_some hline
      simpa [hin] using hback
    rw [UnixIo.reuseCache]
    simp only [hback,Channel.setEntry]
    refine ⟨⟨rfl,rfl,rfl,rfl,le_rfl⟩,h.coherent.drop hclean,?_,?_,?_,?_,?_⟩
    all_goals simp only [update_self]
    · rfl
    exact h.sized slot

/-- To fill it is to set one entry of the channel before. -/
theorem Reused.setEntry_eq {d : Channel} {slot : Slot} {block : ℕ}
    (h : Reused store c d slot block) (entry : UnixCache) :
    d.setEntry slot entry=
      { c with cache:=update c.cache slot entry,accessTime:=d.accessTime,dev:=d.dev } := by
  have hcache := congrArg Channel.cache h.others
  have hsize := congrArg Channel.blockSize h.others
  have hthrough := congrArg Channel.writethrough h.others
  have hoffset := congrArg Channel.offset h.others
  dsimp only at hcache hsize hthrough hoffset
  rw [Channel.setEntry,hsize,hthrough,hoffset,hcache,update_idem]

/-- The entry takes the bytes that the store has for the block. -/
theorem Reused.fill {d : Channel} {slot : Slot} {block : ℕ} (hr : Reused store c d slot block)
    (h : Keeps store c) (hmissed : ∀ s, (c.cache s).inUse=true → (c.cache s).block≠block)
    {data : List UInt8} (hdata : data=slice store (c.location block) c.blockSize) :
    Keeps store (d.setEntry slot { d.cache slot with buf:=data }) := by
  have hlength : data.length=c.blockSize := by rw [hdata,length_slice]
  rw [hr.setEntry_eq]
  refine h.entry slot _ _ hr.frame.limit ?_ hlength (fun _ _ => hr.dirty)
    (fun _ hdirty => ?_) fun _ s _ hin => ?_
  · have hline : lineOf c { d.cache slot with buf:=data }=
        some ⟨c.location block,data,false⟩ := by
      rw [lineOf,if_pos hr.inUse]
      simp only [hr.block,hr.dirty]
    have hload := hr.coherent.load (update_self _ _ _) ⟨c.location block,data,false⟩
      (by rw [hlength,hdata]) fun s line hs i hcovers hnew =>
        h.not_covers_one hmissed (update_none hs).2 hcovers ⟨hnew.1,hlength ▸ hnew.2⟩
    rw [update_idem] at hload
    rw [hline]
    exact hload
  · rw [hr.dirty] at hdirty
    cases hdirty
  · rw [hr.block]
    exact hmissed s hin

/-- The entry takes bytes that are stored for the block, and is dirty unless
the device takes them too. -/
theorem Reused.put {d : Channel} {slot : Slot} {block : ℕ} (hr : Reused store c d slot block)
    (h : Keeps store c) (hmissed : ∀ s, (c.cache s).inUse=true → (c.cache s).block≠block)
    {data : List UInt8} (hdata : data.length=c.blockSize)
    (hfits : c.location block+c.blockSize ≤ c.dev.limit) {dev : Device}
    (hlimit : dev.limit=d.dev.limit)
    (hdev : dev=d.dev ∧ c.writethrough=false ∨
      dev.byte=patch d.dev.byte (c.location block) data) :
    Keeps (patch store (c.location block) data)
      { d.setEntry slot { d.cache slot with buf:=data,dirty:=!c.writethrough } with
        dev:=dev } := by
  rw [hr.setEntry_eq]
  refine h.entry slot _ _ (hlimit.trans hr.frame.limit) ?_ hdata
    (fun hthrough _ => by simp [hthrough]) (fun _ _ => ?_) fun _ s _ hin => ?_
  · have hline : lineOf c { d.cache slot with buf:=data,dirty:=!c.writethrough }=
        some ⟨c.location block,data,!c.writethrough⟩ := by
      rw [lineOf,if_pos hr.inUse]
      simp only [hr.block]
    have hafter : dev.byte=d.dev.byte ∧ (!c.writethrough)=true ∨
        dev.byte=patch d.dev.byte (c.location block) data :=
      hdev.imp (fun hd => ⟨by rw [hd.1],by rw [hd.2]; rfl⟩) id
    have hload := hr.coherent.insert (update_self _ _ _) (c.location block) data
      (fun s line hs i hcovers hnew =>
        h.not_covers_one hmissed (update_none hs).2 hcovers ⟨hnew.1,hdata ▸ hnew.2⟩) hafter
    rw [update_idem] at hload
    rw [hline]
    exact hload
  · simp only [hr.block]
    exact hfits
  · rw [hr.block]
    exact hmissed s hin

/-- The same in an entry that has the block. -/
theorem Keeps.put (h : Keeps store c) {slot : Slot} (hin : (c.cache slot).inUse=true)
    {data : List UInt8} (hdata : data.length=c.blockSize)
    (hfits : c.location (c.cache slot).block+c.blockSize ≤ c.dev.limit) {dev : Device}
    (hlimit : dev.limit=c.dev.limit)
    (hdev : dev=c.dev ∧ c.writethrough=false ∨
      dev.byte=patch c.dev.byte (c.location (c.cache slot).block) data) :
    Keeps (patch store (c.location (c.cache slot).block) data)
      { c.setEntry slot { c.cache slot with buf:=data,dirty:=!c.writethrough } with
        dev:=dev } := by
  refine h.entry slot _ _ hlimit ?_ hdata
    (fun hthrough _ => by simp [hthrough]) (fun _ _ => hfits) fun _ s hs hin' he =>
      hs (h.single s slot hin' hin he)
  have hline : lineOf c { c.cache slot with buf:=data,dirty:=!c.writethrough }=
      some ⟨c.location (c.cache slot).block,data,!c.writethrough⟩ := by
    rw [lineOf,if_pos hin]
  rw [hline]
  exact h.coherent.overwrite (lines_of_inUse hin) (hdata.trans (h.sized slot).symm)
    (hdev.imp (fun hd => ⟨by rw [hd.1],by rw [hd.2]; rfl⟩) id)

/-- One turn of the write loop stores a block. -/
theorem Keeps.storeBlock (h : Keeps store c) {block : ℕ} {data : List UInt8}
    (hdata : data.length=c.blockSize)
    (hfits : c.location block+c.blockSize ≤ c.dev.limit) {dev : Device}
    (hlimit : dev.limit=c.dev.limit)
    (hdev : dev=(storeBlock c block data).dev ∧ c.writethrough=false ∨
      dev.byte=patch (storeBlock c block data).dev.byte (c.location block) data) :
    Keeps (patch store (c.location block) data)
      { storeBlock c block data with dev:=dev } := by
  rcases h.findCachedBlock block with
    ⟨slot,d,hfound,hkeeps,⟨hframe,_,_,_⟩,hin,hblock⟩ | ⟨eldest,hfound,hmissed⟩
  · rw [UnixIo.storeBlock,hfound] at hdev ⊢
    have hlocation := hframe.location block
    rw [←hblock] at hlocation hfits hdev ⊢
    rw [←hlocation] at hfits hdev ⊢
    exact hkeeps.put hin (hdata.trans hframe.blockSize.symm)
      (by rw [hframe.blockSize,hframe.limit]; exact hfits) (hlimit.trans hframe.limit.symm)
      (by rw [hframe.writethrough]; exact hdev)
  · have hr := h.reuseCache eldest block
    rw [UnixIo.storeBlock,hfound] at hdev ⊢
    dsimp only at hdev ⊢
    rw [hr.frame.writethrough] at hdev ⊢
    exact hr.put h hmissed hdata hfits (hlimit.trans hr.frame.limit.symm) hdev

theorem Frame.storeBlock (c : Channel) (h : Keeps store c) (block : ℕ) (data : List UInt8) :
    Frame c (storeBlock c block data) := by
  rcases h.findCachedBlock block with ⟨slot,d,hfound,-,htouched,-⟩ | ⟨eldest,hfound,hmissed⟩
  · rw [UnixIo.storeBlock,hfound]
    exact htouched.frame.trans (.setEntry _ _ _)
  · rw [UnixIo.storeBlock,hfound]
    exact (h.reuseCache eldest block).frame.trans (.setEntry _ _ _)

/-! ### Flushing -/

/-- What a flush leaves of an entry. -/
def Flushed (invalidate : Bool) (entry : UnixCache) : Prop :=
  entry.inUse=true → invalidate=false ∧ entry.dirty=false

/-- An entry becomes clean, or free. -/
theorem Keeps.settle (h : Keeps store c) {slot : Slot} (hin : (c.cache slot).inUse=true)
    (invalidate : Bool) {dev : Device} (hlimit : dev.limit=c.dev.limit)
    (hcoherent : Coherent store dev.byte (update (lines c) slot
      (some ⟨c.location (c.cache slot).block,(c.cache slot).buf,false⟩))) :
    Keeps store { c.setEntry slot { c.cache slot with inUse:=!invalidate,dirty:=false } with
      dev:=dev } := by
  refine h.entry slot _ _ hlimit ?_ (h.sized slot) (fun _ _ => rfl)
    (fun _ hdirty => by cases hdirty) fun _ s hs hin' he => hs (h.single s slot hin' hin he)
  cases invalidate with
  | false => exact hcoherent
  | true =>
    have hdrop := hcoherent.drop (k:=slot) (by rw [update_self]; rintro line ⟨⟩; rfl)
    rw [update_idem] at hdrop
    exact hdrop

/-- One entry is flushed, and no failure is met. -/
theorem Keeps.flushEntry (h : Keeps store c) (invalidate : Bool) (err : Option Errcode)
    (slot : Slot) :
    ∃ d, flushEntry invalidate (c,err) slot=(d,err) ∧ Keeps store d ∧ Frame c d ∧
      Flushed invalidate (d.cache slot) ∧ ∀ s, s≠slot → d.cache s=c.cache s := by
  rw [UnixIo.flushEntry]
  dsimp only
  by_cases hin : (c.cache slot).inUse=true
  · rw [if_neg (by simp [hin])]
    have hflushed : Flushed invalidate { c.cache slot with inUse:=!invalidate,dirty:=false } :=
      fun hused => ⟨by simpa using hused,rfl⟩
    by_cases hdirty : (c.cache slot).dirty=true
    · have hsize : (c.cache slot).buf.length=transferSize c.blockSize 1 := by
        rw [h.sized slot,transferSize,if_neg (by decide)]
        exact (Nat.one_mul _).symm
      have hfits : c.location (c.cache slot).block+(c.cache slot).buf.length ≤ c.dev.limit := by
        rw [h.sized slot]
        exact h.fits slot hin hdirty
      have hwritten := rawWriteBlk_eq (c:=c.setEntry slot
        { c.cache slot with inUse:=!invalidate }) hsize hfits
      rw [if_neg (by simp [hdirty]),hwritten]
      have hco := h.coherent.writeBack (lines_of_inUse hin)
      rw [←write_byte hfits] at hco
      have hsettle := h.settle hin invalidate
        (rfl : (c.dev.write _ (c.cache slot).buf).limit=c.dev.limit) hco
      refine ⟨_,rfl,?_,(Frame.write c _ _).trans ⟨rfl,rfl,rfl,rfl,le_rfl⟩,?_,fun s hs => ?_⟩
      · simp only [Channel.setEntry,update_idem]
        exact hsettle
      · simpa only [Channel.setEntry,update_self] using hflushed
      · simp only [Channel.setEntry,update_of_ne hs]
    · have hclean : (c.cache slot).dirty=false := by simpa using hdirty
      rw [if_pos hclean]
      have hentry : { c.cache slot with inUse:=!invalidate }=
          { c.cache slot with inUse:=!invalidate,dirty:=false } := by rw [←hclean]
      have hline : lines c slot=
          some ⟨c.location (c.cache slot).block,(c.cache slot).buf,false⟩ := by
        rw [lines_of_inUse hin,hclean]
      have hco := h.coherent
      rw [←update_eq_self slot (lines c),hline] at hco
      refine ⟨_,rfl,?_,.setEntry _ _ _,?_,fun s hs => ?_⟩
      · rw [hentry]
        exact h.settle hin invalidate rfl hco
      · rw [hentry]
        simpa only [Channel.setEntry,update_self] using hflushed
      · simp only [Channel.setEntry,update_of_ne hs]
  · rw [if_pos (by simpa using hin)]
    exact ⟨c,rfl,h,.refl c,fun hused => absurd hused hin,fun _ _ => rfl⟩

theorem Keeps.flushEntries (h : Keeps store c) (invalidate : Bool) (err : Option Errcode)
    (slots : List Slot) :
    ∃ d, slots.foldl (UnixIo.flushEntry invalidate) (c,err)=(d,err) ∧ Keeps store d ∧
      Frame c d ∧ (∀ s∈slots, Flushed invalidate (d.cache s)) ∧
      ∀ s, s∉slots → d.cache s=c.cache s := by
  induction slots generalizing c with
  | nil => exact ⟨c,rfl,h,.refl c,fun s hs => absurd hs List.not_mem_nil,fun _ _ => rfl⟩
  | cons slot rest ih =>
    obtain ⟨d,hstep,hkeeps,hframe,hflushed,hsame⟩ := h.flushEntry invalidate err slot
    obtain ⟨e,hrest,hkeeps',hframe',hflushed',hsame'⟩ := ih hkeeps
    refine ⟨e,by rw [List.foldl_cons,hstep,hrest],hkeeps',hframe.trans hframe',?_,?_⟩
    · intro s hs
      by_cases hin : s∈rest
      · exact hflushed' s hin
      · rw [hsame' s hin]
        rcases List.mem_cons.mp hs with rfl | hs
        · exact hflushed
        · exact absurd hs hin
    · intro s hs
      rw [List.mem_cons,not_or] at hs
      rw [hsame' s hs.2,hsame s hs.1]

/-- A flush succeeds, and the device then holds the store. -/
theorem Keeps.flushCachedBlocks (h : Keeps store c) (invalidate : Bool) :
    ∃ d, flushCachedBlocks c invalidate=(d,none) ∧ Keeps store d ∧ Frame c d ∧
      (∀ s, Flushed invalidate (d.cache s)) ∧ d.dev.byte=store := by
  obtain ⟨d,hflush,hkeeps,hframe,hflushed,-⟩ :=
    h.flushEntries invalidate none (List.finRange 8)
  refine ⟨d,hflush,hkeeps,hframe,fun s => hflushed s (List.mem_finRange s),?_⟩
  apply hkeeps.coherent.settled
  intro s line hline
  obtain ⟨hin,rfl⟩ := lines_eq_some hline
  exact (hflushed s (List.mem_finRange s) hin).2

/-! ### Reading -/

theorem length_rawReadBlk (c : Channel) (block : ℕ) (count : ℤ) :
    (rawReadBlk c block count).2.length=transferSize c.blockSize count := by
  rw [rawReadBlk]
  dsimp only
  split
  · exact List.length_replicate
  · split
    · next h => exact h
    · next h =>
      have hle : (c.dev.read (c.location block) (transferSize c.blockSize count)).length ≤
          transferSize c.blockSize count := by
        rw [Device.read,length_slice]
        exact Nat.min_le_left _ _
      rw [List.length_append,List.length_replicate]
      omega

/-- Blocks that are not in the cache are read as the store has them. -/
theorem Keeps.rawReadBlk (h : Keeps store c) {block n : ℕ} (hmissed : Missed c block n)
    {data : List UInt8} (hread : rawReadBlk c block n=(none,data)) :
    data=slice store (c.location block) (n*c.blockSize) := by
  have hdata := rawReadBlk_ok hread
  rw [transferSize_natCast] at hdata
  rw [hdata]
  exact h.coherent.slice_backing fun s line hs i hcovers => h.not_covers hmissed hs hcovers

/-- The run of blocks that are missed. -/
theorem Keeps.missedRun (h : Keeps store c) (block left : ℕ) :
    ∃ d slots, missedRun c block left=(d,slots) ∧ Keeps store d ∧ Touched c d ∧
      Missed c block slots.length := by
  induction left generalizing c block with
  | zero => exact ⟨c,[],rfl,h,.refl c,fun _ _ j hj => absurd hj (Nat.not_lt_zero j)⟩
  | succ left ih =>
    rcases h.findCachedBlock block with
      ⟨slot,d,hfound,hkeeps,htouched,-⟩ | ⟨eldest,hfound,hmissed⟩
    · rw [UnixIo.missedRun,hfound]
      exact ⟨d,[],rfl,hkeeps,htouched,fun _ _ j hj => absurd hj (Nat.not_lt_zero j)⟩
    · rw [UnixIo.missedRun,hfound]
      obtain ⟨d,slots,hrun,hkeeps,htouched,hrest⟩ := ih h (block+1)
      dsimp only
      rw [hrun]
      refine ⟨d,eldest::slots,rfl,hkeeps,htouched,fun s hin j hj => ?_⟩
      cases j with
      | zero => exact hmissed s hin
      | succ j =>
        rw [List.length_cons] at hj
        have hne := hrest s hin j (by omega)
        rwa [Nat.add_assoc,Nat.add_comm 1 j] at hne

theorem Missed.of_touched {d : Channel} (h : Touched c d) {block n : ℕ}
    (hmissed : Missed c block n) : Missed d block n := by
  intro s hin
  rw [h.block]
  exact hmissed s (h.inUse s ▸ hin)

theorem Missed.head {block n : ℕ} (h : Missed c block (n+1)) :
    ∀ s, (c.cache s).inUse=true → (c.cache s).block≠block :=
  fun s hin => h s hin 0 (Nat.succ_pos n)

/-- The blocks that were read are put in the entries. -/
theorem Keeps.saveRun (h : Keeps store c) {block : ℕ} {slots : List Slot} {data : List UInt8}
    (hmissed : Missed c block slots.length)
    (hdata : data=slice store (c.location block) (slots.length*c.blockSize)) :
    Keeps store (saveRun c block slots data) ∧ Frame c (saveRun c block slots data) := by
  induction slots generalizing c block data with
  | nil => exact ⟨h,.refl c⟩
  | cons slot rest ih =>
    have hr := h.reuseCache slot block
    have hsplit : data=slice store (c.location block) c.blockSize++
        slice store (c.location (block+1)) (rest.length*c.blockSize) := by
      rw [hdata,List.length_cons,Nat.succ_mul,Nat.add_comm,slice_add,location_succ]
    have htake : data.take c.blockSize=slice store (c.location block) c.blockSize := by
      rw [hsplit,List.take_left' (length_slice _ _ _)]
    have hdrop : data.drop c.blockSize=
        slice store (c.location (block+1)) (rest.length*c.blockSize) := by
      rw [hsplit,List.drop_left' (length_slice _ _ _)]
    have hfill := hr.fill h hmissed.head htake
    have hframe := hr.frame.trans (.setEntry (UnixIo.reuseCache c slot block) slot
      { (UnixIo.reuseCache c slot block).cache slot with buf:=data.take c.blockSize })
    rw [UnixIo.saveRun]
    dsimp only
    rw [hr.frame.blockSize,hframe.blockSize,hdrop]
    have hnext : Missed ((UnixIo.reuseCache c slot block).setEntry slot
        { (UnixIo.reuseCache c slot block).cache slot with buf:=data.take c.blockSize })
        (block+1) rest.length := by
      intro s hin j hj
      rw [hr.setEntry_eq] at hin ⊢
      dsimp only at hin ⊢
      by_cases hs : s=slot
      · rw [hs,update_self]
        dsimp only
        rw [hr.block]
        omega
      · rw [update_of_ne hs] at hin ⊢
        have hne := hmissed s hin (j+1) (by rw [List.length_cons]; omega)
        rwa [Nat.add_assoc,Nat.add_comm 1 j]
    have hrest := ih hfill hnext (by rw [hframe.location,hframe.blockSize])
    exact ⟨hrest.1,hframe.trans hrest.2⟩

/-- A read of one block that is not in the cache, into a reused entry. -/
theorem Keeps.readOne (h : Keeps store c) {block : ℕ}
    (hmissed : ∀ s, (c.cache s).inUse=true → (c.cache s).block≠block) (slot : Slot) :
    ∃ d data, UnixIo.reuseCache c slot block=d ∧ Frame c d ∧
      (UnixIo.rawReadBlk d block 1=(none,data) ∧ data=slice store (c.location block) c.blockSize ∧
        Keeps store (d.setEntry slot { d.cache slot with buf:=data }) ∨
      ∃ retval, UnixIo.rawReadBlk d block 1=(some retval,data) ∧
        ¬(c.location block+c.blockSize ≤ c.dev.length) ∧
        Keeps store (d.setEntry slot { d.cache slot with buf:=data,inUse:=false })) := by
  have hr := h.reuseCache slot block
  generalize UnixIo.reuseCache c slot block=d at hr ⊢
  refine ⟨d,(UnixIo.rawReadBlk d block 1).2,rfl,hr.frame,?_⟩
  have hone : transferSize d.blockSize 1=c.blockSize :=
    (transferSize_one _).trans hr.frame.blockSize
  have hlength := length_rawReadBlk d block 1
  rcases hread : UnixIo.rawReadBlk d block 1 with ⟨retval | retval,data⟩
  · left
    have hdata := rawReadBlk_ok hread
    rw [hone,hr.frame.location] at hdata
    have hstore : data=slice store (c.location block) c.blockSize := by
      rw [hdata]
      exact hr.coherent.slice_backing fun s line hs i hcovers =>
        h.not_covers_one hmissed (update_none hs).2 hcovers
    exact ⟨rfl,hstore,hr.fill h hmissed hstore⟩
  · right
    refine ⟨retval,rfl,fun hle => ?_,?_⟩
    · have hinside : d.location block+transferSize d.blockSize 1 ≤ d.dev.length := by
        rw [hone,hr.frame.location]
        exact hle.trans hr.frame.length
      have hok := rawReadBlk_eq hinside
      rw [hread] at hok
      cases hok
    · rw [hread,hone] at hlength
      rw [hr.setEntry_eq]
      refine h.entry slot _ _ hr.frame.limit ?_ hlength (fun _ hin => by cases hin)
        (fun hin => by cases hin) fun hin => by cases hin
      exact hr.coherent

/-- What a read of `n` blocks from the channel may leave and answer. -/
structure Reads (store : ℕ → UInt8) (c : Channel) (block n : ℕ)
    (result : Channel×Option Errcode×List UInt8) : Prop where
  keeps : Keeps store result.1
  frame : Frame c result.1
  data : result.2.1=none → result.2.2=slice store (c.location block) (n*c.blockSize)
  inside : c.location block+n*c.blockSize ≤ c.dev.length → result.2.1=none

/-- The rest of a read behind the part that is done. -/
theorem Reads.behind {d : Channel} {block m n : ℕ} {result : Channel×Option Errcode×List UInt8}
    (h : Reads store d (block+m) n result) (hframe : Frame c d) {data : List UInt8}
    (hdata : data=slice store (c.location block) (m*c.blockSize)) :
    Reads store c block (m+n) (result.1,result.2.1,data++result.2.2) where
  keeps := h.keeps
  frame := hframe.trans h.frame
  data herr := by
    have hrest := h.data herr
    rw [hframe.location,hframe.blockSize,location_add] at hrest
    rw [hrest,hdata,Nat.add_mul,slice_add]
  inside hle := by
    apply h.inside
    rw [hframe.location,hframe.blockSize,location_add,Nat.add_assoc,←Nat.add_mul]
    exact hle.trans hframe.length

/-- A failure of the first part. -/
theorem Reads.failed {d : Channel} {block m n : ℕ} {retval : Errcode} {data : List UInt8}
    (hkeeps : Keeps store d) (hframe : Frame c d)
    (hout : ¬(c.location block+m*c.blockSize ≤ c.dev.length)) (hmn : m ≤ n) :
    Reads store c block n (d,some retval,data) where
  keeps := hkeeps
  frame := hframe
  data herr := by cases herr
  inside hle := by
    have hmul := Nat.mul_le_mul_right c.blockSize hmn
    exact absurd (by omega) hout

/-- The read loop returns what is stored. -/
theorem Keeps.readLoop (h : Keeps store c) (block left : ℕ) :
    Reads store c block left (readLoop c block left) := by
  induction left using Nat.strong_induction_on generalizing c block with
  | _ left ih =>
    cases left with
    | zero =>
      rw [UnixIo.readLoop]
      exact ⟨h,.refl c,fun _ => by rw [Nat.zero_mul,slice_zero],fun _ => rfl⟩
    | succ left =>
      rw [UnixIo.readLoop]
      rcases h.findCachedBlock block with
        ⟨slot,d,hfound,hkeeps,htouched,hin,hblock⟩ | ⟨eldest,hfound,hmissed⟩
      · rw [hfound]
        dsimp only
        have hrest := ih left (Nat.lt_succ_self left) hkeeps (block+1)
        have hbuf := hkeeps.buf_eq hin
        rw [hblock,htouched.frame.location,htouched.frame.blockSize] at hbuf
        rw [Nat.add_comm left 1]
        exact hrest.behind htouched.frame (by rw [hbuf,Nat.one_mul])
      · rw [hfound]
        dsimp only
        split
        · next hlast =>
          subst hlast
          obtain ⟨d,data,hreuse,hframe,hread⟩ := h.readOne hmissed eldest
          rw [hreuse]
          rcases hread with ⟨hread,hdata,hkeeps⟩ | ⟨retval,hread,hout,hkeeps⟩
          · rw [hread]
            exact ⟨hkeeps,hframe.trans (.setEntry _ _ _),fun _ => by rw [hdata,Nat.one_mul],
              fun _ => rfl⟩
          · rw [hread]
            exact .failed (m:=1) hkeeps (hframe.trans (.setEntry _ _ _))
              (by rw [Nat.one_mul]; exact hout) (Nat.le_refl 1)
        · obtain ⟨d,slots,hrun,hkeeps,htouched,hrest⟩ := h.missedRun (block+1) left
          have hslots : slots.length ≤ left := by
            have hle := length_missedRun_le c (block+1) left
            rwa [hrun] at hle
          have hall : Missed c block (slots.length+1) := fun s hin j hj => by
            cases j with
            | zero => exact hmissed s hin
            | succ j =>
              have hne := hrest s hin j (by omega)
              rwa [Nat.add_assoc,Nat.add_comm 1 j] at hne
          have hcount : ((slots.length : ℤ)+1)=((slots.length+1 : ℕ) : ℤ) := by omega
          rw [hrun]
          dsimp only
          rw [hcount]
          rcases hread : UnixIo.rawReadBlk d block ((slots.length+1 : ℕ) : ℤ) with
            ⟨retval | retval,data⟩
          · dsimp only
            have hdata := hkeeps.rawReadBlk (hall.of_touched htouched) hread
            have hlength : (eldest::slots).length=slots.length+1 := List.length_cons
            rw [←hlength] at hall hdata
            have hsaved := hkeeps.saveRun (hall.of_touched htouched) hdata
            rw [hlength] at hdata
            rw [htouched.frame.location,htouched.frame.blockSize] at hdata
            have hrest := ih (left-slots.length) (by omega) hsaved.1 (block+slots.length+1)
            have hsum : left+1=slots.length+1+(left-slots.length) := by omega
            rw [Nat.add_assoc] at hrest ⊢
            rw [hsum]
            exact hrest.behind (htouched.frame.trans hsaved.2) hdata
          · dsimp only
            refine .failed (m:=slots.length+1) hkeeps htouched.frame (fun hle => ?_) (by omega)
            have hinside : d.location block+transferSize d.blockSize ((slots.length+1 : ℕ) : ℤ) ≤
                d.dev.length := by
              rw [transferSize_natCast,htouched.frame.location,htouched.frame.blockSize]
              exact hle.trans htouched.frame.length
            rw [rawReadBlk_eq hinside] at hread
            cases hread

/-! ### Writing -/

/-- Channels over two devices go the same way while nothing is written. -/
theorem findCachedBlock_dev (c : Channel) (dev : Device) (block : ℕ) :
    findCachedBlock { c with dev:=dev } block=
      ({ (findCachedBlock c block).1 with dev:=dev },(findCachedBlock c block).2) := by
  rw [findCachedBlock,findCachedBlock]
  dsimp only
  split <;> rfl

/-- A write-through channel stores a block without writing to the device. -/
theorem Keeps.storeBlock_dev (h : Keeps store c) (hthrough : c.writethrough=true)
    (dev : Device) (block : ℕ) (data : List UInt8) :
    UnixIo.storeBlock { c with dev:=dev } block data=
        { UnixIo.storeBlock c block data with dev:=dev } ∧
      (UnixIo.storeBlock c block data).dev=c.dev := by
  rw [UnixIo.storeBlock,UnixIo.storeBlock,findCachedBlock_dev]
  rcases h.findCachedBlock block with
    ⟨slot,d,hfound,-,htouched,-⟩ | ⟨eldest,hfound,-⟩
  · rw [hfound]
    exact ⟨rfl,htouched.dev⟩
  · rw [hfound]
    have hclean : ((c.cache eldest).dirty && (c.cache eldest).inUse)=false := by
      cases hin : (c.cache eldest).inUse with
      | false => exact Bool.and_false _
      | true => rw [h.through hthrough eldest hin,Bool.false_and]
    dsimp only
    simp only [UnixIo.reuseCache,hclean]
    exact ⟨rfl,rfl⟩

/-- The bytes of several blocks, block by block. -/
theorem length_take_blocks {data : List UInt8} {n size : ℕ} (h : data.length=(n+1)*size) :
    (data.take size).length=size ∧ (data.drop size).length=n*size := by
  rw [Nat.succ_mul] at h
  rw [List.length_take,List.length_drop]
  omega

theorem patch_blocks (s : ℕ → UInt8) {data : List UInt8} {n : ℕ}
    (h : data.length=(n+1)*c.blockSize) (block : ℕ) :
    patch s (c.location block) data=
      patch (patch s (c.location block) (data.take c.blockSize)) (c.location (block+1))
        (data.drop c.blockSize) := by
  have happend := patch_append s (c.location block) (data.take c.blockSize)
    (data.drop c.blockSize)
  rw [List.take_append_drop,(length_take_blocks h).1] at happend
  rw [happend,location_succ]

/-- Blocks that are written stay in the cache until they must leave it. -/
theorem Keeps.writeLoop (h : Keeps store c) (hback : c.writethrough=false) {block n : ℕ}
    {data : List UInt8} (hdata : data.length=n*c.blockSize)
    (hfits : c.location block+data.length ≤ c.dev.limit) :
    Keeps (patch store (c.location block) data) (UnixIo.writeLoop c block n data) ∧
      Frame c (UnixIo.writeLoop c block n data) := by
  induction n generalizing store c block data with
  | zero =>
    rw [Nat.zero_mul] at hdata
    rw [List.eq_nil_of_length_eq_zero hdata,patch_nil]
    exact ⟨h,.refl c⟩
  | succ n ih =>
    obtain ⟨hfirst,hrest⟩ := length_take_blocks hdata
    rw [hdata,Nat.succ_mul] at hfits
    have hframe := Frame.storeBlock c h block (data.take c.blockSize)
    have hstored : Keeps (patch store (c.location block) (data.take c.blockSize))
        (UnixIo.storeBlock c block (data.take c.blockSize)) :=
      h.storeBlock hfirst (by omega) hframe.limit (.inl ⟨rfl,hback⟩)
    have hrest' : (data.drop c.blockSize).length=
        n*(UnixIo.storeBlock c block (data.take c.blockSize)).blockSize := by
      rw [hframe.blockSize]
      exact hrest
    have hfits' : (UnixIo.storeBlock c block (data.take c.blockSize)).location (block+1)+
        (data.drop c.blockSize).length ≤
        (UnixIo.storeBlock c block (data.take c.blockSize)).dev.limit := by
      rw [hframe.location,hframe.limit,location_succ,hrest]
      omega
    have hloop := ih hstored (hframe.writethrough.trans hback) hrest' hfits'
    rw [UnixIo.writeLoop,patch_blocks store hdata block]
    rw [hframe.location] at hloop
    exact ⟨hloop.1,hframe.trans hloop.2⟩

theorem Keeps.withDev (h : Keeps store c) {dev : Device} (hlimit : dev.limit=c.dev.limit)
    (hbyte : dev.byte=c.dev.byte) : Keeps store { c with dev:=dev } where
  coherent := hbyte ▸ h.coherent
  sized := h.sized
  through := h.through
  fits s hin hdirty := hlimit ▸ h.fits s hin hdirty
  single := h.single

/-- Blocks that the device has taken are put in the cache. -/
theorem Keeps.writeLoop_through (h : Keeps store c) (hthrough : c.writethrough=true)
    {block n : ℕ} {data : List UInt8} (hdata : data.length=n*c.blockSize)
    (hfits : c.location block+data.length ≤ c.dev.limit) {dev : Device}
    (hlimit : dev.limit=c.dev.limit)
    (hdev : dev.byte=patch c.dev.byte (c.location block) data) :
    Keeps (patch store (c.location block) data)
        (UnixIo.writeLoop { c with dev:=dev } block n data) ∧
      Frame { c with dev:=dev } (UnixIo.writeLoop { c with dev:=dev } block n data) := by
  induction n generalizing store c block data with
  | zero =>
    rw [Nat.zero_mul] at hdata
    rw [List.eq_nil_of_length_eq_zero hdata,patch_nil] at hdev ⊢
    exact ⟨h.withDev hlimit hdev,.refl _⟩
  | succ n ih =>
    obtain ⟨hfirst,hrest⟩ := length_take_blocks hdata
    rw [hdata,Nat.succ_mul] at hfits
    obtain ⟨hcommutes,hsame⟩ := h.storeBlock_dev hthrough dev block (data.take c.blockSize)
    have hframe := Frame.storeBlock c h block (data.take c.blockSize)
    have hfirstFits : c.location block+(data.take c.blockSize).length ≤ c.dev.limit := by
      rw [hfirst]
      omega
    have hbyte := write_byte hfirstFits
    -- the part of the device that is written block by block stands for the device before
    have hstored : Keeps (patch store (c.location block) (data.take c.blockSize))
        { UnixIo.storeBlock c block (data.take c.blockSize) with
          dev:=c.dev.write (c.location block) (data.take c.blockSize) } :=
      h.storeBlock hfirst (by omega) rfl (.inr (by rw [hsame]; exact hbyte))
    have hlocation := hframe.location (block+1)
    have hloop := ih hstored (hframe.writethrough.trans hthrough)
      (hrest.trans (congrArg (n*·) hframe.blockSize.symm))
      (by
        rw [hrest]
        refine le_trans (Nat.le_of_eq (congrArg (·+n*c.blockSize) hlocation)) ?_
        rw [location_succ]
        show c.location block+c.blockSize+n*c.blockSize ≤ c.dev.limit
        omega)
      hlimit (by
        rw [hdev,patch_blocks c.dev.byte hdata block]
        show patch _ _ _=patch (c.dev.write _ _).byte
          ((UnixIo.storeBlock c block (data.take c.blockSize)).location (block+1)) _
        rw [hbyte,hlocation])
    have hplace : ({ UnixIo.storeBlock c block (data.take c.blockSize) with
        dev:=c.dev.write (c.location block) (data.take c.blockSize) } : Channel).location
          (block+1)=c.location (block+1) := hlocation
    rw [UnixIo.writeLoop,patch_blocks store hdata block,hcommutes]
    rw [hplace] at hloop
    have hdevFrame : Frame { c with dev:=dev }
        { UnixIo.storeBlock c block (data.take c.blockSize) with dev:=dev } :=
      ⟨hframe.blockSize,hframe.writethrough,hframe.offset,rfl,le_rfl⟩
    exact ⟨hloop.1,hdevFrame.trans hloop.2⟩

/-! ### Requests -/

/-- Without an entry in use the store is on the device. -/
theorem keeps_of_free (hfree : ∀ s, (c.cache s).inUse=false)
    (hsized : ∀ s, (c.cache s).buf.length=c.blockSize) : Keeps c.dev.byte c where
  coherent := by
    have hlines : lines c=fun _ => none := funext fun s => if_neg (by simp [hfree s])
    rw [hlines]
    exact coherent_empty _
  sized := hsized
  through _ s hin := by
    rw [hfree s] at hin
    cases hin
  fits s hin := by
    rw [hfree s] at hin
    cases hin
  single s t hin := by
    rw [hfree s] at hin
    cases hin

/-- Bytes are written to the device behind an empty cache. -/
theorem Keeps.writeDirect (h : Keeps store c) (hflushed : ∀ s, Flushed true (c.cache s))
    (hbyte : c.dev.byte=store) {location : ℕ} {data : List UInt8}
    (hfits : location+data.length ≤ c.dev.limit) :
    Keeps (patch store location data) { c with dev:=c.dev.write location data } := by
  have hfree (s : Slot) : (c.cache s).inUse=false := by
    cases hin : (c.cache s).inUse with
    | false => rfl
    | true => exact absurd (hflushed s hin).1 (by decide)
  have hkeeps := keeps_of_free (c:={ c with dev:=c.dev.write location data }) hfree h.sized
  dsimp only at hkeeps
  rwa [write_byte hfits,hbyte] at hkeeps

/-- A read of any number of blocks or bytes. -/
theorem Keeps.unixReadBlk64 (h : Keeps store c) (block : ℕ) (count : ℤ) :
    ∃ d err data, unixReadBlk64 c block count=(d,err,data) ∧ Keeps store d ∧ Frame c d ∧
      (err=none → data=slice store (c.location block) (transferSize c.blockSize count)) ∧
      (c.location block+transferSize c.blockSize count ≤ c.dev.length → err=none) := by
  rw [UnixIo.unixReadBlk64]
  split
  · obtain ⟨d,hflush,hkeeps,hframe,-,hbyte⟩ := h.flushCachedBlocks false
    rw [hflush]
    dsimp only
    rw [←hframe.location,←hframe.blockSize]
    refine ⟨d,(UnixIo.rawReadBlk d block count).1,(UnixIo.rawReadBlk d block count).2,rfl,
      hkeeps,hframe,fun herr => ?_,fun hle => ?_⟩
    · rw [←hbyte]
      exact rawReadBlk_ok (Prod.ext herr rfl)
    · rw [rawReadBlk_eq (hle.trans hframe.length)]
  · next hcount =>
    have hcast : ((count.toNat : ℕ) : ℤ)=count := Int.toNat_of_nonneg (by omega)
    have hsize := transferSize_natCast c.blockSize count.toNat
    rw [hcast] at hsize
    rw [hsize]
    have hread := h.readLoop block count.toNat
    exact ⟨_,_,_,rfl,hread.keeps,hread.frame,hread.data,hread.inside⟩

/-- A write of any number of blocks or bytes. -/
theorem Keeps.unixWriteBlk64 (h : Keeps store c) {block : ℕ} {count : ℤ} {buf : List UInt8}
    (hbuf : buf.length=transferSize c.blockSize count)
    (hfits : c.location block+buf.length ≤ c.dev.limit) :
    ∃ d, unixWriteBlk64 c block count buf=(d,none) ∧
      Keeps (patch store (c.location block) buf) d ∧ Frame c d := by
  rw [UnixIo.unixWriteBlk64]
  split
  · obtain ⟨d,hflush,hkeeps,hframe,hflushed,hbyte⟩ := h.flushCachedBlocks true
    rw [hflush]
    dsimp only
    rw [←hframe.location,←hframe.limit] at hfits
    rw [←hframe.blockSize] at hbuf
    rw [rawWriteBlk_eq hbuf hfits,←hframe.location]
    exact ⟨_,rfl,hkeeps.writeDirect hflushed hbyte hfits,hframe.trans (.write _ _ _)⟩
  · next hcount =>
    have hcast : ((count.toNat : ℕ) : ℤ)=count := Int.toNat_of_nonneg (by omega)
    have hsize := transferSize_natCast c.blockSize count.toNat
    rw [hcast] at hsize
    cases hthrough : c.writethrough with
    | false =>
      have hloop := h.writeLoop hthrough (hbuf.trans hsize) hfits
      exact ⟨_,rfl,hloop⟩
    | true =>
      rw [if_pos rfl,rawWriteBlk_eq hbuf hfits]
      have hloop := h.writeLoop_through hthrough (hbuf.trans hsize) hfits
        (rfl : (c.dev.write (c.location block) buf).limit=c.dev.limit) (write_byte hfits)
      exact ⟨_,rfl,hloop.1,(Frame.write c _ _).trans hloop.2⟩

/-- A write of single bytes. -/
theorem Keeps.unixWriteByte (h : Keeps store c) {offset : ℕ} {buf : List UInt8}
    (hfits : offset+c.offset+buf.length ≤ c.dev.limit) :
    ∃ d, unixWriteByte c offset buf=(d,none) ∧
      Keeps (patch store (offset+c.offset) buf) d ∧ Frame c d := by
  obtain ⟨d,hflush,hkeeps,hframe,hflushed,hbyte⟩ := h.flushCachedBlocks true
  rw [←hframe.offset,←hframe.limit] at hfits
  rw [UnixIo.unixWriteByte,hflush]
  dsimp only
  rw [if_neg (by omega),accepted_of_le hfits,if_pos rfl,←hframe.offset]
  exact ⟨_,rfl,hkeeps.writeDirect hflushed hbyte hfits,hframe.trans (.write _ _ _)⟩

/-- Another block size. -/
theorem Keeps.unixSetBlksize (h : Keeps store c) (blksize : ℕ) :
    ∃ d, unixSetBlksize c blksize=(d,none) ∧ Keeps store d ∧ d.blockSize=blksize ∧
      d.writethrough=c.writethrough ∧ d.offset=c.offset ∧ d.dev.limit=c.dev.limit ∧
      c.dev.length ≤ d.dev.length := by
  rw [UnixIo.unixSetBlksize]
  split
  · next hsame => exact ⟨c,rfl,h,hsame,rfl,rfl,rfl,le_rfl⟩
  · obtain ⟨d,hflush,-,hframe,-,hbyte⟩ := h.flushCachedBlocks false
    rw [hflush]
    refine ⟨_,rfl,?_,rfl,hframe.writethrough,hframe.offset,hframe.limit,hframe.length⟩
    have hkeeps := keeps_of_free
      (c:={ d with blockSize:=blksize,accessTime:=0,cache:=allocCache blksize })
      (fun _ => rfl) fun _ => List.length_replicate
    exact hbyte ▸ hkeeps

/-! ### Runs -/

/-- What a device is for: bytes that are kept, addressed by blocks of a size. -/
structure Image where
  byte : ℕ → UInt8
  blockSize : ℕ

/-- What a request means. -/
def Image.serve (offset : ℕ) (image : Image) : Request → Image
  | .writeBlk block _ buf =>
    { image with byte:=patch image.byte (block*image.blockSize+offset) buf }
  | .writeByte place buf => { image with byte:=patch image.byte (place+offset) buf }
  | .setBlksize blksize => { image with blockSize:=blksize }
  | .readBlk _ _ | .flush => image

/-- What a caller promises: a buffer of the right size, and room for it on the
device; locations are signed numbers of 64 bits. -/
def Admitted (limit offset : ℕ) (image : Image) : Request → Prop
  | .readBlk block count =>
    block*image.blockSize+offset+transferSize image.blockSize count < 2^63
  | .writeBlk block count buf => buf.length=transferSize image.blockSize count ∧
    block*image.blockSize+offset+buf.length ≤ limit
  | .writeByte place buf => place+offset+buf.length ≤ limit
  | .flush | .setBlksize _ => True

/-- What may be answered. A read returns what is stored, and does not fail in
the part of the device that was there from the start; nothing else fails. -/
def Right (length offset : ℕ) (image : Image) : Request → Answer → Prop
  | .readBlk block count,answer =>
    (answer.retval=none → answer.buf=slice image.byte (block*image.blockSize+offset)
      (transferSize image.blockSize count)) ∧
    (block*image.blockSize+offset+transferSize image.blockSize count ≤ length →
      answer.retval=none)
  | _,answer => answer.retval=none

/-- All requests of a run are admitted. -/
def AllAdmitted (limit offset : ℕ) : Image → List Request → Prop
  | _,[] => True
  | image,request::rest => Admitted limit offset image request ∧
    AllAdmitted limit offset (image.serve offset request) rest

/-- All answers of a run are right. -/
def AllRight (length offset : ℕ) : Image → List Request → List Answer → Prop
  | _,[],[] => True
  | image,request::rest,answer::others => Right length offset image request answer ∧
    AllRight length offset (image.serve offset request) rest others
  | _,_,_ => False

/-- A channel whose entries and device hold an image. -/
structure Holds (dev : Device) (offset : ℕ) (writethrough : Bool) (image : Image)
    (c : Channel) : Prop where
  keeps : Keeps image.byte c
  blockSize : c.blockSize=image.blockSize
  offset : c.offset=offset
  writethrough : c.writethrough=writethrough
  limit : c.dev.limit=dev.limit
  length : dev.length ≤ c.dev.length

theorem Holds.of_frame {dev : Device} {offset : ℕ} {writethrough : Bool} {image next : Image}
    {d : Channel} (h : Holds dev offset writethrough image c) (hframe : Frame c d)
    (hkeeps : Keeps next.byte d) (hsize : next.blockSize=image.blockSize) :
    Holds dev offset writethrough next d :=
  ⟨hkeeps,(hframe.blockSize.trans h.blockSize).trans hsize.symm,hframe.offset.trans h.offset,
    hframe.writethrough.trans h.writethrough,hframe.limit.trans h.limit,
    h.length.trans hframe.length⟩

/-- One request is served as it is meant. -/
theorem Holds.serve {dev : Device} {offset : ℕ} {writethrough : Bool} {image : Image}
    (h : Holds dev offset writethrough image c) {request : Request}
    (hadmitted : Admitted dev.limit offset image request) :
    Holds dev offset writethrough (image.serve offset request) (serve c request).1 ∧
      Right dev.length offset image request (UnixIo.serve c request).2 := by
  have hlocation (block : ℕ) : c.location block=block*image.blockSize+offset := by
    rw [Channel.location,h.blockSize,h.offset]
  cases request with
  | readBlk block count =>
    obtain ⟨d,err,data,hread,hkeeps,hframe,hdata,hinside⟩ := h.keeps.unixReadBlk64 block count
    rw [hlocation,h.blockSize] at hdata hinside
    simp only [UnixIo.serve,hread]
    exact ⟨h.of_frame hframe hkeeps rfl,hdata,fun hle => hinside (hle.trans h.length)⟩
  | writeBlk block count buf =>
    obtain ⟨hbuf,hfits⟩ := hadmitted
    rw [←h.blockSize] at hbuf
    rw [←hlocation,←h.limit] at hfits
    obtain ⟨d,hwrite,hkeeps,hframe⟩ := h.keeps.unixWriteBlk64 hbuf hfits
    rw [hlocation] at hkeeps
    simp only [UnixIo.serve,hwrite]
    exact ⟨h.of_frame hframe hkeeps rfl,rfl⟩
  | writeByte place buf =>
    have hfits : place+c.offset+buf.length ≤ c.dev.limit := by
      rw [h.offset,h.limit]
      exact hadmitted
    obtain ⟨d,hwrite,hkeeps,hframe⟩ := h.keeps.unixWriteByte hfits
    rw [h.offset] at hkeeps
    simp only [UnixIo.serve,hwrite]
    exact ⟨h.of_frame hframe hkeeps rfl,rfl⟩
  | flush =>
    obtain ⟨d,hflush,hkeeps,hframe,-⟩ := h.keeps.flushCachedBlocks false
    simp only [UnixIo.serve,unixFlush,hflush]
    exact ⟨h.of_frame hframe hkeeps rfl,rfl⟩
  | setBlksize blksize =>
    obtain ⟨d,hset,hkeeps,hsize,hthrough,hoffset,hlimit,hlength⟩ :=
      h.keeps.unixSetBlksize blksize
    simp only [UnixIo.serve,hset]
    exact ⟨⟨hkeeps,hsize,hoffset.trans h.offset,hthrough.trans h.writethrough,
      hlimit.trans h.limit,h.length.trans hlength⟩,rfl⟩

/-- The image after a run. -/
def imageAfter (offset : ℕ) (image : Image) (requests : List Request) : Image :=
  requests.foldl (Image.serve offset) image

/-- A run is served as it is meant. -/
theorem Holds.serveAll {dev : Device} {offset : ℕ} {writethrough : Bool} {image : Image}
    (h : Holds dev offset writethrough image c) {requests : List Request}
    (hadmitted : AllAdmitted dev.limit offset image requests) :
    Holds dev offset writethrough (imageAfter offset image requests)
        (UnixIo.serveAll c requests).1 ∧
      AllRight dev.length offset image requests (UnixIo.serveAll c requests).2 := by
  induction requests generalizing image c with
  | nil => exact ⟨h,trivial⟩
  | cons request rest ih =>
    obtain ⟨hfirst,hright⟩ := h.serve hadmitted.1
    obtain ⟨hrest,hrights⟩ := ih hfirst hadmitted.2
    exact ⟨hrest,hright,hrights⟩

/-- A channel that was just opened holds the device. -/
theorem holds_unixOpen (dev : Device) (writethrough : Bool) (offset : ℕ) :
    Holds dev offset writethrough ⟨dev.byte,1024⟩ (unixOpen dev writethrough offset) where
  keeps := keeps_of_free (c:=unixOpen dev writethrough offset) (fun _ => rfl)
    fun _ => List.length_replicate
  blockSize := rfl
  offset := rfl
  writethrough := rfl
  limit := rfl
  length := le_rfl

/-- A device of four blocks, which may double. -/
def blankDevice : Device := ⟨fun _ => 0,4096,8192,by decide,fun _ _ => rfl⟩

/-- Blocks of two bytes that are written, partly overwritten and read back. -/
def smallRun : List Request :=
  [.setBlksize 2,.writeBlk 1 2 [9,9,8,8],.readBlk 0 4,.writeByte 3 [7],.readBlk 1 1]

theorem smallRun_admitted : AllAdmitted blankDevice.limit 0 ⟨blankDevice.byte,1024⟩ smallRun :=
  ⟨trivial,⟨rfl,by decide⟩,by simp [Admitted,Image.serve,transferSize],
    by simp [Admitted,blankDevice],by simp [Admitted,Image.serve,transferSize],trivial⟩

end AndroidPlatform.UnixIo
