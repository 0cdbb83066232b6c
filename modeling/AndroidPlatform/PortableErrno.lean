import AndroidPlatform.TranslationTable
import Mathlib.Data.Int.Notation
import Mathlib.Data.List.Induction

/-!
# The errno layer of libportable on MIPS

One logical errno is kept in three cells: the native cell of the C library, and
`pshadow` and `perrno` of a block that is allocated on first use. Every access
through `WRAP(__errno)` first reconciles them and moves a portable assignment
on to the native cell, through `errno_pton`, from where the next access takes
it back through `errno_ntop`.
-/

namespace AndroidPlatform.PortableErrno

open TranslationTable

/-- The cases of `errno_ntop` and `errno_pton`, in the order of the source: the
native value of MIPS and the portable one. -/
def errnoCases : List (ℤ×ℤ) :=
  [(78,36), -- ENAMETOOLONG
   (46,37), -- ENOLCK
   (89,38), -- ENOSYS
   (93,39), -- ENOTEMPTY
   (90,40), -- ELOOP
   (11,11), -- EWOULDBLOCK
   (35,42), -- ENOMSG
   (36,43), -- EIDRM
   (37,44), -- ECHRNG
   (38,45), -- EL2NSYNC
   (39,46), -- EL3HLT
   (40,47), -- EL3RST
   (41,48), -- ELNRNG
   (42,49), -- EUNATCH
   (43,50), -- ENOCSI
   (44,51), -- EL2HLT
   (50,52), -- EBADE
   (51,53), -- EBADR
   (52,54), -- EXFULL
   (53,55), -- ENOANO
   (54,56), -- EBADRQC
   (55,57), -- EBADSLT
   (56,35), -- EDEADLOCK
   (59,59), -- EBFONT
   (60,60), -- ENOSTR
   (61,61), -- ENODATA
   (62,62), -- ETIME
   (63,63), -- ENOSR
   (64,64), -- ENONET
   (65,65), -- ENOPKG
   (66,66), -- EREMOTE
   (67,67), -- ENOLINK
   (68,68), -- EADV
   (69,69), -- ESRMNT
   (70,70), -- ECOMM
   (71,71), -- EPROTO
   (74,72), -- EMULTIHOP
   (73,73), -- EDOTDOT
   (77,74), -- EBADMSG
   (79,75), -- EOVERFLOW
   (80,76), -- ENOTUNIQ
   (81,77), -- EBADFD
   (82,78), -- EREMCHG
   (83,79), -- ELIBACC
   (84,80), -- ELIBBAD
   (85,81), -- ELIBSCN
   (86,82), -- ELIBMAX
   (87,83), -- ELIBEXEC
   (88,84), -- EILSEQ
   (91,85), -- ERESTART
   (92,86), -- ESTRPIPE
   (94,87), -- EUSERS
   (95,88), -- ENOTSOCK
   (96,89), -- EDESTADDRREQ
   (97,90), -- EMSGSIZE
   (98,91), -- EPROTOTYPE
   (99,92), -- ENOPROTOOPT
   (120,93), -- EPROTONOSUPPORT
   (121,94), -- ESOCKTNOSUPPORT
   (122,95), -- EOPNOTSUPP
   (123,96), -- EPFNOSUPPORT
   (124,97), -- EAFNOSUPPORT
   (125,98), -- EADDRINUSE
   (126,99), -- EADDRNOTAVAIL
   (127,100), -- ENETDOWN
   (128,101), -- ENETUNREACH
   (129,102), -- ENETRESET
   (130,103), -- ECONNABORTED
   (131,104), -- ECONNRESET
   (132,105), -- ENOBUFS
   (133,106), -- EISCONN
   (134,107), -- ENOTCONN
   (143,108), -- ESHUTDOWN
   (144,109), -- ETOOMANYREFS
   (145,110), -- ETIMEDOUT
   (146,111), -- ECONNREFUSED
   (147,112), -- EHOSTDOWN
   (148,113), -- EHOSTUNREACH
   (149,114), -- EALREADY
   (150,115), -- EINPROGRESS
   (151,116), -- ESTALE
   (135,117), -- EUCLEAN
   (137,118), -- ENOTNAM
   (138,119), -- ENAVAIL
   (139,120), -- EISNAM
   (140,121), -- EREMOTEIO
   (1133,122), -- EDQUOT
   (159,123), -- ENOMEDIUM
   (160,124), -- EMEDIUMTYPE
   (158,125), -- ECANCELED
   (161,126), -- ENOKEY
   (162,127), -- EKEYEXPIRED
   (163,128), -- EKEYREVOKED
   (164,129), -- EKEYREJECTED
   (165,130), -- EOWNERDEAD
   (166,131)] -- ENOTRECOVERABLE

/-- `errno_ntop`. -/
def errnoNtop (nativeErrno : ℤ) : ℤ := translate errnoCases nativeErrno

/-- `errno_pton`. -/
def errnoPton (portableErrno : ℤ) : ℤ := translate (backward errnoCases) portableErrno

theorem errnoCases_labels : (errnoCases.map Prod.fst).Nodup := by decide +kernel

theorem errnoCases_results : (errnoCases.map Prod.snd).Nodup := by decide +kernel

/-- The values that come back unchanged from the native side: all but the
native numbers of MIPS that are no portable ones. -/
theorem errnoNtop_errnoPton_iff {v : ℤ} : errnoNtop (errnoPton v)=v ↔
    v∈errnoCases.map Prod.snd ∨ v∉errnoCases.map Prod.fst :=
  translate_backward_iff errnoCases_labels errnoCases_results

example : errnoNtop (errnoPton 132)=105 := by decide +kernel

theorem errnoPton_eq_zero_iff {v : ℤ} : errnoPton v=0 ↔ v=0 := by
  constructor
  · intro h
    by_cases hv : v∈(backward errnoCases).map Prod.fst
    · have hall : ∀ x∈(backward errnoCases).map Prod.fst, errnoPton x≠0 := by decide +kernel
      exact absurd h (hall v hv)
    · rw [←translate_of_not_mem hv]
      exact h
  · intro h
    rw [h]
    decide +kernel

theorem errnoNtop_zero : errnoNtop 0=0 := by decide +kernel

/-- `struct errno_state`. -/
structure ErrnoState where
  /-- The portable value that the native cell is known to stand for. -/
  pshadow : ℤ
  /-- The cell that portable code reads and writes. -/
  perrno : ℤ
  deriving DecidableEq

/-- What one thread can see. -/
structure Thread where
  /-- The native errno. -/
  native : ℤ
  /-- The block under `errno_key`, once there is one. -/
  data : Option ErrnoState
  /-- The static block for the case that there is none. -/
  errnoState : ErrnoState
  deriving DecidableEq

/-- `errno_key_data` up to its result: a missing block is allocated, with
whatever content `malloc` gives it. -/
def errnoKeyData (malloc : Option ErrnoState) (thread : Thread) : Thread :=
  match thread.data with
  | some _ => thread
  | none => {thread with data := malloc}

/-- The block that `errno_key_data` points to. -/
def pointed (thread : Thread) : ErrnoState := thread.data.getD thread.errnoState

/-- A write through that pointer. -/
def writePointed (thread : Thread) (p : ErrnoState) : Thread :=
  match thread.data with
  | some _ => {thread with data := some p}
  | none => {thread with errnoState := p}

/-- `WRAP(__errno)`; the result points to `perrno` of the block. -/
def errno (malloc : Option ErrnoState) (thread : Thread) : Thread :=
  let saveErrno := thread.native
  let thread := errnoKeyData malloc thread
  let p := pointed thread
  if saveErrno=0 ∧ p.pshadow≠p.perrno then
    {writePointed thread ⟨p.perrno,p.perrno⟩ with native := errnoPton p.perrno}
  else if saveErrno≠0 ∧ p.pshadow=p.perrno then
    {writePointed thread ⟨errnoNtop saveErrno,errnoNtop saveErrno⟩ with native := 0}
  else if saveErrno≠0 ∧ p.pshadow≠p.perrno then
    {writePointed thread ⟨errnoNtop saveErrno,errnoNtop saveErrno⟩ with native := 0}
  else {thread with native := saveErrno}

/-- `WRAP(__set_errno)`. -/
def setErrno (malloc : Option ErrnoState) (thread : Thread) (portableErrno : ℤ) : Thread :=
  {writePointed (errnoKeyData malloc thread) ⟨portableErrno,portableErrno⟩ with
    native := errnoPton portableErrno}

/-- A portable read of errno: the value behind the pointer. -/
def readErrno (malloc : Option ErrnoState) (thread : Thread) : ℤ :=
  (pointed (errno malloc thread)).perrno

/-- A portable assignment to errno: a write behind the pointer. -/
def assignErrno (malloc : Option ErrnoState) (thread : Thread) (v : ℤ) : Thread :=
  let thread := errno malloc thread
  writePointed thread {pointed thread with perrno := v}

/-- The operations on errno. -/
inductive Op where
  /-- The C library stores an error number. -/
  | native (n : ℤ) (h : n≠0)
  /-- Portable code reads. -/
  | read
  /-- Portable code assigns. -/
  | assign (v : ℤ)
  /-- Portable code calls `WRAP(__set_errno)`. -/
  | setErrno (v : ℤ)
  deriving DecidableEq

/-- One operation. -/
def step (malloc : Option ErrnoState) (thread : Thread) : Op → Thread
  | .native n _ => {thread with native := n}
  | .read => errno malloc thread
  | .assign v => assignErrno malloc thread v
  | .setErrno v => setErrno malloc thread v

/-- A new thread. -/
def start : Thread where
  native := 0
  data := none
  errnoState := ⟨0,0⟩

/-- The state after a sequence of operations. `malloc` gives this thread a
block with the content of its argument, or always fails. -/
def run (malloc : Option ErrnoState) (ops : List Op) : Thread := ops.foldl (step malloc) start

/-- The logical value of errno after an operation, from that before. -/
def storeValue (last : ℤ) : Op → ℤ
  | .native n _ => errnoNtop n
  | .read => last
  | .assign v => v
  | .setErrno v => v

/-- The value of the most recent store, 0 if there was none. -/
def lastStore (ops : List Op) : ℤ := ops.foldl storeValue 0

/-- At every point of the sequence a portable read returns the value of the
most recent store. -/
def ReadsLastStore (malloc : Option ErrnoState) (ops : List Op) : Prop :=
  ∀ earlier later, ops=earlier++later → readErrno malloc (run malloc earlier)=lastStore earlier

/-- The block that the next call of `errno_key_data` gives. -/
def block (malloc : Option ErrnoState) (thread : Thread) : ErrnoState :=
  pointed (errnoKeyData malloc thread)

/-- A portable assignment has not yet been moved on to the native cell. -/
def Pending (malloc : Option ErrnoState) (thread : Thread) : Prop :=
  thread.native=0 ∧ (block malloc thread).pshadow≠(block malloc thread).perrno

/-- What an operation may not do. A read moves a pending value to the native
side, where it must survive; an assignment moves a pending value there too,
and that value is then taken for the newer one; a value given to
`WRAP(__set_errno)` goes there at once. -/
def Keeps (malloc : Option ErrnoState) (thread : Thread) : Op → Prop
  | .native _ _ => True
  | .read => Pending malloc thread →
    errnoNtop (errnoPton (block malloc thread).perrno)=(block malloc thread).perrno
  | .assign v => Pending malloc thread → (block malloc thread).perrno≠0 →
    errnoNtop (errnoPton (block malloc thread).perrno)=v
  | .setErrno v => errnoNtop (errnoPton v)=v

section Cells

variable (malloc : Option ErrnoState) (thread : Thread)

/-- The thread with this block and this native cell. -/
def withCells (p : ErrnoState) (n : ℤ) : Thread :=
  {writePointed (errnoKeyData malloc thread) p with native := n}

theorem pointed_withCells (p : ErrnoState) (n : ℤ) :
    pointed (withCells malloc thread p n)=p := by
  unfold withCells writePointed pointed
  cases hdata : (errnoKeyData malloc thread).data with
  | none => rfl
  | some old => rfl

/-- The block stays the same once it was handed out. -/
theorem block_withCells (p : ErrnoState) (n : ℤ) :
    block malloc (withCells malloc thread p n)=p := by
  obtain ⟨native,data,errnoState⟩ := thread
  cases data with
  | none =>
    cases malloc with
    | none => rfl
    | some q => rfl
  | some old => rfl

theorem writePointed_withCells (p q : ErrnoState) (n : ℤ) :
    writePointed (withCells malloc thread p n) q=withCells malloc thread q n := by
  unfold withCells writePointed
  cases hdata : (errnoKeyData malloc thread).data with
  | none => rfl
  | some old => rfl

theorem withCells_self (n : ℤ) :
    withCells malloc thread (block malloc thread) n=
      {errnoKeyData malloc thread with native := n} := by
  unfold withCells block
  generalize errnoKeyData malloc thread=used
  obtain ⟨native,data,errnoState⟩ := used
  cases data with
  | none => rfl
  | some old => rfl

/-- How `WRAP(__errno)` reconciles the native cell with the block. -/
def reconcile (saveErrno : ℤ) (p : ErrnoState) : ErrnoState×ℤ :=
  if saveErrno=0 then
    if p.pshadow=p.perrno then (p,0) else (⟨p.perrno,p.perrno⟩,errnoPton p.perrno)
  else (⟨errnoNtop saveErrno,errnoNtop saveErrno⟩,0)

theorem errno_eq : errno malloc thread=
    withCells malloc thread (reconcile thread.native (block malloc thread)).1
      (reconcile thread.native (block malloc thread)).2 := by
  unfold errno reconcile
  dsimp only
  by_cases hn : thread.native=0
  · by_cases hp : (block malloc thread).pshadow=(block malloc thread).perrno
    · rw [if_neg fun h => h.2 hp,if_neg fun h => h.1 hn,if_neg fun h => h.1 hn,if_pos hn,if_pos hp,
        withCells_self,hn]
    · rw [if_pos ⟨hn,hp⟩,if_pos hn,if_neg hp]
      rfl
  · rw [if_neg fun h => hn h.1,if_neg hn]
    by_cases hp : (block malloc thread).pshadow=(block malloc thread).perrno
    · rw [if_pos ⟨hn,hp⟩]
      rfl
    · rw [if_neg fun h => hp h.2,if_pos ⟨hn,hp⟩]
      rfl

theorem assignErrno_eq (v : ℤ) : assignErrno malloc thread v=
    withCells malloc thread
      {(reconcile thread.native (block malloc thread)).1 with perrno := v}
      (reconcile thread.native (block malloc thread)).2 := by
  rw [assignErrno,errno_eq]
  dsimp only
  rw [pointed_withCells,writePointed_withCells]

/-- What a portable read returns. -/
theorem readErrno_eq : readErrno malloc thread=
    if thread.native=0 then (block malloc thread).perrno else errnoNtop thread.native := by
  rw [readErrno,errno_eq,pointed_withCells,reconcile]
  by_cases hn : thread.native=0
  · rw [if_pos hn,if_pos hn]
    split <;> rfl
  · rw [if_neg hn,if_neg hn]

theorem readErrno_withCells (p : ErrnoState) (n : ℤ) :
    readErrno malloc (withCells malloc thread p n)=if n=0 then p.perrno else errnoNtop n := by
  rw [readErrno_eq,block_withCells]
  rfl

/-- A value on the native side reads back as its way there and back. -/
theorem readErrno_errnoPton (p : ErrnoState) (v : ℤ) :
    readErrno malloc (withCells malloc thread p (errnoPton v))=
      if v=0 then p.perrno else errnoNtop (errnoPton v) := by
  rw [readErrno_withCells]
  by_cases hv : v=0
  · rw [if_pos hv,if_pos (errnoPton_eq_zero_iff.mpr hv)]
  · rw [if_neg hv,if_neg fun h => hv (errnoPton_eq_zero_iff.mp h)]

theorem roundTrip_zero : errnoNtop (errnoPton 0)=0 := by
  rw [errnoPton_eq_zero_iff.mpr rfl,errnoNtop_zero]

end Cells

section Runs

variable {malloc : Option ErrnoState} {thread : Thread} {last : ℤ}

theorem readErrno_read_iff (h : readErrno malloc thread=last) :
    readErrno malloc (step malloc thread .read)=last ↔ Keeps malloc thread .read := by
  rw [step,errno_eq,reconcile,Keeps,Pending]
  rw [readErrno_eq] at h
  by_cases hn : thread.native=0
  · rw [if_pos hn] at h ⊢
    by_cases hp : (block malloc thread).pshadow=(block malloc thread).perrno
    · rw [if_pos hp,readErrno_withCells,if_pos rfl]
      exact ⟨fun _ hpend => absurd hp hpend.2,fun _ => h⟩
    · rw [if_neg hp,readErrno_errnoPton]
      dsimp only
      have hroundTrip : (block malloc thread).perrno=0 →
          errnoNtop (errnoPton (block malloc thread).perrno)=(block malloc thread).perrno := by
        intro hzero
        rw [hzero,roundTrip_zero]
      rw [←h]
      split
      · next hzero => exact ⟨fun _ _ => hroundTrip hzero,fun _ => rfl⟩
      · exact ⟨fun heq _ => heq,fun hkeep => hkeep ⟨hn,hp⟩⟩
  · rw [if_neg hn] at h ⊢
    rw [readErrno_withCells,if_pos rfl]
    exact ⟨fun _ hpend => absurd hpend.1 hn,fun _ => h⟩

theorem readErrno_assign_iff (v : ℤ) :
    readErrno malloc (step malloc thread (.assign v))=v ↔ Keeps malloc thread (.assign v) := by
  rw [step,assignErrno_eq,reconcile,Keeps,Pending]
  by_cases hn : thread.native=0
  · rw [if_pos hn]
    by_cases hp : (block malloc thread).pshadow=(block malloc thread).perrno
    · rw [if_pos hp,readErrno_withCells,if_pos rfl]
      exact ⟨fun _ hpend => absurd hp hpend.2,fun _ => rfl⟩
    · rw [if_neg hp,readErrno_errnoPton]
      dsimp only
      split
      · next hzero => exact ⟨fun _ _ hne => absurd hzero hne,fun _ => rfl⟩
      · next hne => exact ⟨fun heq _ _ => heq,fun hkeep => hkeep ⟨hn,hp⟩ hne⟩
  · rw [if_neg hn,readErrno_withCells,if_pos rfl]
    exact ⟨fun _ hpend => absurd hpend.1 hn,fun _ => rfl⟩

theorem readErrno_setErrno_iff (v : ℤ) :
    readErrno malloc (step malloc thread (.setErrno v))=v ↔
      Keeps malloc thread (.setErrno v) := by
  rw [Keeps]
  change readErrno malloc (withCells malloc thread ⟨v,v⟩ (errnoPton v))=v ↔ _
  rw [readErrno_errnoPton]
  split
  · next hzero =>
    rw [hzero,roundTrip_zero]
  · exact Iff.rfl

/-- One operation: where reads were right before it, they are right after it
exactly if it keeps the value. -/
theorem readErrno_step_iff (h : readErrno malloc thread=last) (op : Op) :
    readErrno malloc (step malloc thread op)=storeValue last op ↔ Keeps malloc thread op := by
  cases op with
  | native n hn =>
    rw [readErrno_eq]
    exact ⟨fun _ => trivial,fun _ => if_neg hn⟩
  | read => exact readErrno_read_iff h
  | assign v => exact readErrno_assign_iff v
  | setErrno v => exact readErrno_setErrno_iff v

theorem run_append (ops : List Op) (op : Op) :
    run malloc (ops++[op])=step malloc (run malloc ops) op := by
  rw [run,run,List.foldl_append]
  rfl

theorem lastStore_append (ops : List Op) (op : Op) :
    lastStore (ops++[op])=storeValue (lastStore ops) op := by
  rw [lastStore,lastStore,List.foldl_append]
  rfl

/-- Reads return the most recent store throughout a sequence exactly if the
first block holds no error number and every operation keeps the value. -/
theorem readsLastStore_iff (malloc : Option ErrnoState) (ops : List Op) :
    ReadsLastStore malloc ops ↔ (block malloc start).perrno=0 ∧
      ∀ earlier op later, ops=earlier++op::later → Keeps malloc (run malloc earlier) op := by
  constructor
  · intro h
    constructor
    · have hstart := h [] ops rfl
      rw [readErrno_eq] at hstart
      exact hstart
    · intro earlier op later hops
      have hbefore := h earlier (op::later) hops
      have hafter := h (earlier++[op]) later (by rw [hops,List.append_assoc]; rfl)
      rw [run_append,lastStore_append] at hafter
      exact (readErrno_step_iff hbefore op).mp hafter
  · rintro ⟨hstart,hkeeps⟩ earlier
    induction earlier using List.reverseRecOn with
    | nil =>
      intro _ _
      rw [readErrno_eq]
      exact hstart
    | append_singleton earlier op ih =>
      intro later hops
      have hsplit : ops=earlier++op::later := by
        rw [hops,List.append_assoc]
        rfl
      have hbefore := ih (op::later) hsplit
      rw [run_append,lastStore_append]
      exact (readErrno_step_iff hbefore op).mpr (hkeeps earlier op later hsplit)

/-- The second of two assignments is lost: errno is set to 5 and then to 7,
and reads as 5. -/
theorem not_forall_readsLastStore :
    ¬∀ (malloc : Option ErrnoState) (ops : List Op), ReadsLastStore malloc ops := by
  intro h
  have hread := h (some ⟨0,0⟩) [.assign 5,.assign 7] [.assign 5,.assign 7] [] rfl
  have hcode : readErrno (some ⟨0,0⟩) (run (some ⟨0,0⟩) [.assign 5,.assign 7])=5 := by
    decide +kernel
  have hlast : lastStore [.assign 5,.assign 7]=7 := by decide
  rw [hcode,hlast] at hread
  exact absurd hread (by decide)

end Runs

end AndroidPlatform.PortableErrno
