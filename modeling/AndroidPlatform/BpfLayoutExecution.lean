import AndroidPlatform.BpfLayout

/-!
# The laid out program runs as the block graph

A layout places every block that the root leads to exactly once, in front of
the blocks it leads to, with displacements that reach them. The program
therefore decides every branch and executes every statement as the graph
does, whatever the instructions do.
-/

namespace AndroidPlatform.BpfLayout

open BpfProgram MarkedTraversal

/-! ## The instructions of one block -/

theorem fillStmts_length {slen off : ℕ} {stmts : List Stmt} {insns : List BpfInsn}
    (h : fillStmts slen off stmts=.ok insns) : insns.length=slength stmts := by
  induction stmts generalizing off insns with
  | nil =>
    cases h
    rfl
  | cons src rest ih =>
    rw [fillStmts] at h
    split_ifs at h with hnop
    · rw [ih h,slength,slength,List.countP_cons_of_neg (by simpa using hnop)]
    · obtain ⟨insn,-,h⟩ := bind_eq_ok.mp h
      obtain ⟨behind,hrest,h⟩ := bind_eq_ok.mp h
      cases h
      rw [List.length_cons,ih hrest,slength,slength,
        List.countP_cons_of_pos (by simpa using hnop)]

theorem placeJump_length {long extrajmps off jt : ℕ} {jas : List BpfInsn}
    (h : placeJump long extrajmps off=some (jt,jas)) : jas.length≤long := by
  unfold placeJump at h
  split_ifs at h with hfar hlong
  · cases h
    exact Nat.one_le_iff_ne_zero.mpr hlong
  · cases h
    exact Nat.zero_le long

/-- A branch is split into the placement of its two jumps. -/
theorem fillBranch_ok {long : LongJumps} {p pc code k jtOffset jfOffset : ℕ}
    {branch : List BpfInsn} (h : fillBranch long p pc code k jtOffset jfOffset=.ok branch) :
    ∃ jt jas jf jas', placeJump (long.jt p) 0 (jtOffset-pc-1)=some (jt,jas) ∧
      placeJump (long.jf p) jas.length (jfOffset-pc-1)=some (jf,jas') ∧
      branch=⟨code,jt,jf,k⟩::(jas++jas') := by
  unfold fillBranch at h
  split at h
  · cases h
  · rename_i jt jas hjt
    split at h
    · cases h
    · rename_i jf jas' hjf
      cases h
      exact ⟨jt,jas,jf,jas',hjt,hjf,rfl⟩

theorem fillEnd_length {g : BlockGraph} {long : LongJumps} {offset : ℕ → ℕ} {p pc : ℕ}
    {branch : List BpfInsn} (h : fillEnd g long offset p pc=.ok branch) :
    branch.length≤1+long.jt p+long.jf p := by
  unfold fillEnd at h
  split at h
  · obtain ⟨jt,jas,jf,jas',hjt,hjf,rfl⟩ := fillBranch_ok h
    have hlen := placeJump_length hjt
    have hlen' := placeJump_length hjf
    rw [List.length_cons,List.length_append]
    omega
  · cases h
  · cases h
    rw [List.length_singleton]
    omega

/-- A block is its statements, its branch and the room it does not use. -/
theorem blockCode_ok {g : BlockGraph} {long : LongJumps} {offset : ℕ → ℕ} {p start : ℕ}
    {block : List BpfInsn} (h : blockCode g long offset p start=.ok block) :
    ∃ stmts branch room, fillStmts (slength (g.block p).stmts) 0 (g.block p).stmts=.ok stmts ∧
      fillEnd g long offset p (start+slength (g.block p).stmts)=.ok branch ∧
      block=stmts++(branch++List.replicate room zeroInsn) ∧
      block.length=blockSize g long p := by
  obtain ⟨stmts,hstmts,h⟩ := bind_eq_ok.mp h
  obtain ⟨branch,hbranch,h⟩ := bind_eq_ok.mp h
  cases h
  refine ⟨stmts,branch,_,hstmts,hbranch,rfl,?_⟩
  have hlen := fillEnd_length hbranch
  rw [List.length_append,fillStmts_length hstmts,List.length_append,List.length_replicate,
    blockSize]
  omega

/-- A block reads the places of its successors only. -/
theorem blockCode_congr {g : BlockGraph} {long : LongJumps} {offset offset' : ℕ → ℕ} {p : ℕ}
    (h : ∀ c∈g.succ p, offset' c=offset c) (start : ℕ) :
    blockCode g long offset' p start=blockCode g long offset p start := by
  have hend : ∀ pc, fillEnd g long offset' p pc=fillEnd g long offset p pc := by
    intro pc
    unfold fillEnd
    cases ht : (g.block p).jt with
    | none => rfl
    | some t =>
      cases hf : (g.block p).jf with
      | none => rfl
      | some f =>
        dsimp only
        rw [h t (mem_succ.mpr (Or.inl ht)),h f (mem_succ.mpr (Or.inr hf))]
  unfold blockCode
  rw [hend]

/-! ## Where the blocks are -/

/-- Block `x` stands at its offset in a program of `n` instructions, and the
blocks it leads to stand behind it. -/
def Placed (g : BlockGraph) (long : LongJumps) (n : ℕ) (l : Layout) (x : ℕ) : Prop :=
  ∃ before block behind, l.code=before++(block++behind) ∧
    blockCode g long l.offset x (l.offset x)=.ok block ∧
    l.offset x+(block++behind).length=n ∧
    ∀ c∈g.succ x, c∈l.marked ∧ l.offset x+block.length≤l.offset c ∧ l.offset c<n

/-- What placing more blocks in front leaves as it is. -/
structure Grows (l l' : Layout) : Prop where
  /-- No mark is taken back. -/
  marked : ∀ x∈l.marked, x∈l'.marked
  /-- Marked blocks keep their places. -/
  offset : ∀ x∈l.marked, l'.offset x=l.offset x
  /-- Instructions come in front only. -/
  code : ∃ front, l'.code=front++l.code

theorem Grows.refl (l : Layout) : Grows l l := ⟨fun _ hx => hx,fun _ _ => rfl,[],rfl⟩

theorem Grows.trans {l l' l'' : Layout} (h : Grows l l') (h' : Grows l' l'') : Grows l l'' := by
  obtain ⟨front,hfront⟩ := h.code
  obtain ⟨front',hfront'⟩ := h'.code
  refine ⟨fun x hx => h'.marked x (h.marked x hx),fun x hx => ?_,front'++front,?_⟩
  · rw [h'.offset x (h.marked x hx),h.offset x hx]
  · rw [hfront',hfront,List.append_assoc]

/-- A block stays placed when its place and those of its successors are kept. -/
theorem Placed.extend {g : BlockGraph} {long : LongJumps} {n : ℕ} {l l' : Layout} {x : ℕ}
    (h : Placed g long n l x) (hmarked : ∀ y∈l.marked, y∈l'.marked)
    (hx : l'.offset x=l.offset x) (hoffset : ∀ c∈g.succ x, l'.offset c=l.offset c)
    (hcode : ∃ front, l'.code=front++l.code) : Placed g long n l' x := by
  obtain ⟨before,block,behind,heq,hblock,hend,hsucc⟩ := h
  obtain ⟨front,hfront⟩ := hcode
  refine ⟨front++before,block,behind,?_,?_,?_,?_⟩
  · rw [hfront,heq,List.append_assoc]
  · rw [hx,← hblock]
    exact blockCode_congr hoffset _
  · rw [hx,hend]
  · intro c hc
    rw [hx,hoffset c hc]
    exact (hsucc c hc).imp_left (hmarked c)

theorem Placed.grows {g : BlockGraph} {long : LongJumps} {n : ℕ} {l l' : Layout} {x : ℕ}
    (h : Placed g long n l x) (hx : x∈l.marked) (hgrows : Grows l l') : Placed g long n l' x := by
  refine h.extend hgrows.marked (hgrows.offset x hx) (fun c hc => ?_) hgrows.code
  obtain ⟨_,_,_,-,-,-,hsucc⟩ := h
  exact hgrows.offset c (hsucc c hc).1

/-- Marking a block leaves the layout as it is. -/
theorem Grows.mark (l : Layout) (p : ℕ) : Grows l { l with marked := insert p l.marked } :=
  ⟨fun _ hx => Finset.mem_insert_of_mem hx,fun _ _ => rfl,[],rfl⟩

/-- A placed block lies within what is placed. -/
theorem Placed.le_offset {g : BlockGraph} {long : LongJumps} {n : ℕ} {l : Layout} {x : ℕ}
    (h : Placed g long n l x) : n≤l.offset x+l.code.length ∧ l.offset x<n := by
  obtain ⟨before,block,behind,hcode,hblock,hend,-⟩ := h
  obtain ⟨-,-,-,-,-,-,hlen⟩ := blockCode_ok hblock
  rw [List.length_append] at hend
  rw [hcode,List.length_append,List.length_append]
  rw [blockSize] at hlen
  omega

/-- Placing a block whose successors are all placed. -/
theorem placeBlock_ok {g : BlockGraph} {long : LongJumps} {n p : ℕ} {l l' : Layout}
    (h : placeBlock g long n p l=.ok l')
    (hroom : l.code.length+blockSize g long p≤n)
    (hsucc : ∀ c∈g.succ p, c∈l.marked ∧ c≠p ∧ Placed g long n l c) :
    Placed g long n l' p ∧ l'.marked=l.marked ∧ l'.offset p+l'.code.length=n ∧
      l'.code.length=l.code.length+blockSize g long p ∧
      (∀ x, x≠p → l'.offset x=l.offset x) ∧ ∃ front, l'.code=front++l.code := by
  obtain ⟨block,hblock,h⟩ := bind_eq_ok.mp h
  cases h
  obtain ⟨-,-,-,-,-,-,hlen⟩ := blockCode_ok hblock
  have hlength : (block++l.code).length=l.code.length+blockSize g long p := by
    rw [List.length_append,hlen,Nat.add_comm]
  refine ⟨⟨[],block,l.code,rfl,?_,?_,?_⟩,rfl,?_,hlength,?_,block,rfl⟩
  · dsimp only
    rw [if_pos rfl]
    exact hblock
  · dsimp only
    rw [if_pos rfl,hlength]
    omega
  · intro c hc
    obtain ⟨hmarked,hne,hplaced⟩ := hsucc c hc
    obtain ⟨hle,hlt⟩ := hplaced.le_offset
    dsimp only
    rw [if_pos rfl,if_neg hne,hlen]
    exact ⟨hmarked,by omega,hlt⟩
  · dsimp only
    rw [if_pos rfl,hlength]
    omega
  · intro x hx
    exact if_neg hx

/-- What a completed layout from some blocks below a rank adds. -/
structure Converted (g : BlockGraph) (long : LongJumps) (n : ℕ) (start : List ℕ) (bound : ℕ)
    (l l' : Layout) : Prop where
  /-- It marks what the blocks lead to. -/
  visits : Visits g.succ start l.marked l'.marked
  /-- What was there is left as it was. -/
  grows : Grows l l'
  /-- The instructions it adds are the room of the blocks it marks. -/
  size : l'.code.length+∑ x∈l.marked, blockSize g long x=
    l.code.length+∑ x∈l'.marked, blockSize g long x
  /-- The blocks it marks are placed, and they are no further up. -/
  placed : ∀ x∈l'.marked, x∉l.marked → g.rank x<bound ∧ Placed g long n l' x
  /-- Every instruction it adds belongs to a block it marks. -/
  cover : ∀ i, n ≤ i+l'.code.length → i+l.code.length<n →
    ∃ x∈l'.marked, x∉l.marked ∧ l'.offset x ≤ i ∧ i<l'.offset x+blockSize g long x

theorem Converted.of_marked {g : BlockGraph} {long : LongJumps} {n bound : ℕ} {start : List ℕ}
    {l : Layout} (h : ∀ x∈start, x∈l.marked) : Converted g long n start bound l l :=
  ⟨.of_marked h,Grows.refl l,rfl,fun _ hx hnot => absurd hx hnot,fun i hge hlt => by omega⟩

/-- Two layouts one after the other. -/
theorem Converted.append {g : BlockGraph} {long : LongJumps} {n b b' bound : ℕ} {s t : List ℕ}
    {l l1 l2 : Layout} (h : Converted g long n s b l l1) (h' : Converted g long n t b' l1 l2)
    (hb : b≤bound) (hb' : b'≤bound) : Converted g long n (s++t) bound l l2 := by
  have hsum := h.size
  have hsum' := h'.size
  refine ⟨h.visits.append h'.visits,h.grows.trans h'.grows,by omega,?_,?_⟩
  · intro x hx hnot
    by_cases hold : x∈l1.marked
    · obtain ⟨hrank,hplaced⟩ := h.placed x hold hnot
      exact ⟨by omega,hplaced.grows hold h'.grows⟩
    · obtain ⟨hrank,hplaced⟩ := h'.placed x hx hold
      exact ⟨by omega,hplaced⟩
  · intro i hge hlt
    by_cases hfirst : i+l1.code.length<n
    · obtain ⟨x,hx,hnot,hle,hin⟩ := h'.cover i hge hfirst
      exact ⟨x,hx,fun hmem => hnot (h.grows.marked x hmem),hle,hin⟩
    · obtain ⟨x,hx,hnot,hle,hin⟩ := h.cover i (by omega) hlt
      rw [← h'.grows.offset x hx] at hle hin
      exact ⟨x,h'.grows.marked x hx,hnot,hle,hin⟩

theorem rank_succ {g : BlockGraph} {p c : ℕ} (hc : c∈g.succ p) : g.rank c<g.rank p := by
  rcases mem_succ.mp hc with hc | hc
  · exact g.rank_jt p c hc
  · exact g.rank_jf p c hc

/-- The layout of the successors of a block, and then the block itself. -/
theorem Converted.enter {g : BlockGraph} {long : LongJumps} {n p : ℕ} {l l2 l' : Layout}
    (hp : p∉l.marked)
    (h : Converted g long n (g.succ p) (g.rank p) { l with marked := insert p l.marked } l2)
    (hold : ∀ x∈l.marked, g.rank x<g.rank p → Placed g long n l x)
    (hroom : l2.code.length+blockSize g long p≤n)
    (hok : placeBlock g long n p l2=.ok l') :
    Converted g long n [p] (g.rank p+1) l l' ∧ l'.offset p+l'.code.length=n := by
  have hgrows := (Grows.mark l p).trans h.grows
  have hsucc : ∀ c∈g.succ p, c∈l2.marked ∧ c≠p ∧ Placed g long n l2 c := by
    intro c hc
    have hrank := rank_succ hc
    have hne : c≠p := by
      rintro rfl
      omega
    have hmarked : c∈l2.marked := h.visits.start_mem c hc
    refine ⟨hmarked,hne,?_⟩
    by_cases hbefore : c∈l.marked
    · exact (hold c hbefore hrank).grows hbefore hgrows
    · refine (h.placed c hmarked ?_).2
      rw [Finset.mem_insert]
      exact fun hor => hor.elim hne hbefore
  obtain ⟨hself,hmarked,htop,hlen,hoffset,front,hfront⟩ := placeBlock_ok hok hroom hsucc
  obtain ⟨front',hfront'⟩ := hgrows.code
  have hsum := h.size
  dsimp only at hsum
  rw [Finset.sum_insert hp] at hsum
  refine ⟨⟨?_,⟨?_,?_,front++front',?_⟩,?_,?_,?_⟩,htop⟩
  · rw [hmarked]
    exact .enter (fun _ => Iff.rfl) h.visits
  · rw [hmarked]
    exact hgrows.marked
  · intro x hx
    rw [hoffset x (fun hxp => hp (hxp ▸ hx))]
    exact hgrows.offset x hx
  · rw [hfront,hfront',List.append_assoc]
  · rw [hmarked]
    omega
  · intro x hx hnot
    rw [hmarked] at hx
    by_cases hxp : x=p
    · rw [hxp]
      exact ⟨Nat.lt_succ_self _,hself⟩
    · have hin : x∉insert p l.marked := by
        rw [Finset.mem_insert]
        exact fun hor => hor.elim hxp hnot
      obtain ⟨hrank,hplaced⟩ := h.placed x hx hin
      refine ⟨Nat.lt_succ_of_lt hrank,?_⟩
      refine hplaced.extend (fun y hy => by rwa [hmarked]) (hoffset x hxp) ?_ ⟨front,hfront⟩
      intro c hc
      have hlower := rank_succ hc
      refine hoffset c ?_
      rintro rfl
      omega
  · intro i hge hlt
    rw [hmarked]
    by_cases hfirst : i+l2.code.length<n
    · exact ⟨p,h.grows.marked p (Finset.mem_insert_self p l.marked),hp,by omega,by omega⟩
    · obtain ⟨x,hx,hnot,hle,hin⟩ := h.cover i (by omega) hlt
      rw [Finset.mem_insert,not_or] at hnot
      rw [← hoffset x hnot.1] at hle hin
      exact ⟨x,hx,hnot.2,hle,hin⟩

section Recursion

variable {g : BlockGraph} {long : LongJumps} {n : ℕ} {R : Finset ℕ}

/-- What the recursion relies on: the marks stay within the blocks that were
counted, their room is left, and a marked block that is not placed yet is
one of those the recursion came through. -/
structure Ready (g : BlockGraph) (long : LongJumps) (n : ℕ) (R : Finset ℕ) (p : Option ℕ)
    (l : Layout) : Prop where
  /-- The block was counted. -/
  start : ∀ x∈p.toList, x∈R
  /-- The marked blocks were counted. -/
  marked : ∀ x∈l.marked, x∈R
  /-- There is room for the blocks that have no mark. -/
  room : l.code.length+∑ x∈R, blockSize g long x≤n+∑ x∈l.marked, blockSize g long x
  /-- Marked blocks that the block may lead to are placed. -/
  placed : ∀ x∈l.marked, g.rank x<g.height p → Placed g long n l x

/-- The layout of the first successor leaves the second one ready. -/
theorem Ready.next {p p' : Option ℕ} {l l' : Layout} (h : Ready g long n R p l)
    (hC : ∀ x∈R, ∀ y∈g.succ x, y∈R) (hstart : ∀ x∈p'.toList, x∈R)
    (hplaced : ∀ x∈l.marked, g.rank x<g.height p' → Placed g long n l x)
    (hconv : Converted g long n p.toList (g.height p) l l') : Ready g long n R p' l' := by
  have hsize := hconv.size
  have hroom := h.room
  refine ⟨hstart,?_,by omega,?_⟩
  · exact hconv.visits.least {x | x∈R} h.marked h.start hC
  · intro x hx hrank
    by_cases hold : x∈l.marked
    · exact (hplaced x hold hrank).grows hold hconv.grows
    · exact (hconv.placed x hx hold).2

/-- Blocks below the one that was entered are placed or still without a mark. -/
theorem Ready.below {p : ℕ} {l : Layout} (h : Ready g long n R (some p) l) (c : Option ℕ)
    (hc : g.height c<g.rank p+1) :
    ∀ x∈insert p l.marked, g.rank x<g.height c →
      Placed g long n { l with marked := insert p l.marked } x := by
  intro x hx hrank
  rcases Finset.mem_insert.mp hx with rfl | hx
  · omega
  · have hlt : g.rank x<g.height (some p) := by
      rw [BlockGraph.height]
      omega
    exact (h.placed x hx hlt).grows hx (Grows.mark l p)

/-- The layout of the first successor is ready once the block is marked. -/
theorem Ready.enter {p : ℕ} {l : Layout} (h : Ready g long n R (some p) l) (hp : p∉l.marked)
    (c : Option ℕ) (hstart : ∀ x∈c.toList, x∈R) (hc : g.height c<g.rank p+1) :
    Ready g long n R c { l with marked := insert p l.marked } := by
  have hroom := h.room
  refine ⟨hstart,fun x hx => ?_,?_,h.below c hc⟩
  · rcases Finset.mem_insert.mp hx with rfl | hx
    · exact h.start x (by simp)
    · exact h.marked x hx
  · dsimp only
    rw [Finset.sum_insert hp]
    omega

/-- A completed `convert_code_r`. -/
theorem convertCodeR_ok {p : Option ℕ} {l l' : Layout}
    (hC : ∀ x∈R, ∀ y∈g.succ x, y∈R) (hready : Ready g long n R p l)
    (hok : convertCodeR g long n p l=.ok l') :
    Converted g long n p.toList (g.height p) l l' ∧
      ∀ q∈p.toList, q∉l.marked → l'.offset q+l'.code.length=n := by
  generalize hsize : g.height p=size
  induction size using Nat.strong_induction_on generalizing p l l' with
  | h size ih =>
    cases p with
    | none =>
      rw [convertCodeR] at hok
      cases hok
      exact ⟨.of_marked (by simp),by simp⟩
    | some p =>
      rw [convertCodeR] at hok
      split_ifs at hok with hp
      · cases hok
        exact ⟨.of_marked (by simpa using hp),by simpa using fun hnot => absurd hp hnot⟩
      · obtain ⟨l1,hf,hok⟩ := bind_eq_ok.mp hok
        obtain ⟨l2,ht,hok⟩ := bind_eq_ok.mp hok
        have hpR : p∈R := hready.start p (by simp)
        have hjf : ∀ x∈(g.block p).jf.toList, x∈R :=
          fun x hx => hC p hpR x (mem_succ.mpr (Or.inr (by simpa using hx)))
        have hjt : ∀ x∈(g.block p).jt.toList, x∈R :=
          fun x hx => hC p hpR x (mem_succ.mpr (Or.inl (by simpa using hx)))
        have hlowf := g.height_jf p
        have hlowt := g.height_jt p
        have hready1 := hready.enter hp _ hjf hlowf
        have hconv1 := (ih _ (by rw [← hsize]; exact hlowf) hready1 hf rfl).1
        have hready2 := hready1.next hC hjt (hready.below _ hlowt) hconv1
        have hconv2 := (ih _ (by rw [← hsize]; exact hlowt) hready2 ht rfl).1
        have hconv : Converted g long n (g.succ p) (g.rank p) _ l2 :=
          hconv1.append hconv2 (by omega) (by omega)
        have hall : ∀ x∈l2.marked, x∈R := hconv.visits.least {x | x∈R} hready1.marked (hC p hpR) hC
        have hmono := Finset.sum_le_sum_of_subset (f := blockSize g long) hall
        have hroom := hready.room
        have hsum := hconv.size
        dsimp only at hsum
        rw [Finset.sum_insert hp] at hsum
        obtain ⟨hdone,htop⟩ := hconv.enter hp
          (fun x hx hrank => hready.placed x hx (Nat.lt_succ_of_lt hrank)) (by omega) hok
        rw [← hsize]
        refine ⟨hdone,fun q hq _ => ?_⟩
        rw [show q=p by simpa using hq]
        exact htop

end Recursion

/-- A try that succeeds fills the program exactly, with the root in front. -/
theorem tryLayout_ok {g : BlockGraph} {long : LongJumps} {l : Layout}
    (h : tryLayout g long=.ok l) :
    l.code.length=(countStmts g long (some g.root) ∅).1 ∧ l.offset g.root=0 ∧
      (∀ x∈reached g, Placed g long l.code.length l x) ∧
      ∀ i<l.code.length, ∃ x∈reached g, l.offset x ≤ i ∧ i<l.offset x+blockSize g long x := by
  have hready : Ready g long (countStmts g long (some g.root) ∅).1 (reached g) (some g.root)
      ⟨∅,fun _ => 0,[]⟩ := by
    refine ⟨by simpa using root_mem_reached g,by simp,?_,by simp⟩
    rw [countStmts_total]
    simp
  obtain ⟨hconv,htop⟩ := convertCodeR_ok (reached_closed g) hready h
  have hmarked : l.marked=reached g :=
    hconv.visits.unique (countStmts_visits g _ (some g.root) ∅)
  have hlen : l.code.length=(countStmts g long (some g.root) ∅).1 := by
    have hsum := hconv.size
    rw [hmarked,← countStmts_total] at hsum
    simpa using hsum
  have hroot := htop g.root (by simp) (by simp)
  refine ⟨hlen,by omega,?_,?_⟩
  · intro x hx
    rw [hlen]
    exact (hconv.placed x (by rwa [hmarked]) (by simp)).2
  · intro i hi
    obtain ⟨x,hx,-,hle,hlt⟩ := hconv.cover i (by omega) (by simpa [← hlen] using hi)
    exact ⟨x,by rwa [← hmarked],hle,hlt⟩

/-! ## Jumps -/

/-- A conditional jump at `pc` with this displacement arrives at the target:
directly if it is near, else through one unconditional jump. -/
def BranchTo (prog : List BpfInsn) (pc disp target : ℕ) : Prop :=
  target<prog.length ∧ disp<256 ∧
    ((target≤pc+256 ∧ pc+1+disp=target) ∨
      (pc+256<target ∧ ∃ k, prog[pc+1+disp]?=some ⟨bpfJmpJa,0,0,k⟩ ∧ pc+1+disp+1+k=target))

theorem BranchTo.lt_length {prog : List BpfInsn} {pc disp target : ℕ}
    (h : BranchTo prog pc disp target) : pc+1+disp<prog.length := by
  obtain ⟨hin,-,⟨-,heq⟩ | ⟨-,k,hget,-⟩⟩ := h
  · rwa [heq]
  · exact (List.getElem?_eq_some_iff.mp hget).1

/-- However far the target is, the run goes on there. -/
theorem BranchTo.run {prog : List BpfInsn} {pc disp target : ℕ}
    (h : BranchTo prog pc disp target) {σ ρ : Type} (M : Machine σ ρ) (s : σ) :
    M.run prog (pc+1+disp) s=M.run prog target s := by
  obtain ⟨-,-,⟨-,heq⟩ | ⟨-,k,hget,heq⟩⟩ := h
  · rw [heq]
  · rw [Machine.run_ja hget rfl,heq]

/-- A jump that is placed arrives, given that its extra jump is where it says. -/
theorem placeJump_branchTo {prog : List BpfInsn} {long extrajmps pc target disp : ℕ}
    {jas : List BpfInsn} (h : placeJump long extrajmps (target-pc-1)=some (disp,jas))
    (hlt : pc<target) (hextra : extrajmps<256) (hin : target<prog.length)
    (hjas : ∀ i insn, jas[i]?=some insn → prog[pc+1+(extrajmps+i)]?=some insn) :
    BranchTo prog pc disp target := by
  unfold placeJump at h
  split_ifs at h with hfar hlong
  · cases h
    have hchar : uChar extrajmps=extrajmps := by
      unfold uChar
      omega
    rw [hchar]
    exact ⟨hin,hextra,Or.inr ⟨by omega,_,hjas 0 _ rfl,by omega⟩⟩
  · cases h
    have hchar : uChar (target-pc-1 : ℕ)=target-pc-1 := by
      unfold uChar
      omega
    rw [hchar]
    exact ⟨hin,by omega,Or.inl ⟨by omega,by omega⟩⟩

/-- The extra jumps are unconditional and arrive at the target. -/
theorem placeJump_ja {long extrajmps pc target disp : ℕ} {jas : List BpfInsn}
    (h : placeJump long extrajmps (target-pc-1)=some (disp,jas)) (hextra : extrajmps<256)
    {i : ℕ} {insn : BpfInsn} (hi : jas[i]?=some insn) :
    insn.code=bpfJmpJa ∧ pc+1+(extrajmps+i)+1+insn.k=target := by
  unfold placeJump at h
  split_ifs at h with hfar hlong
  · cases h
    cases i with
    | zero =>
      cases hi
      exact ⟨rfl,by dsimp only; omega⟩
    | succ i => cases hi
  · cases h
    cases hi

/-! ## The program -/

/-- The instruction of a statement that is not a jump. -/
def stmtInsn (st : Stmt) : BpfInsn := ⟨uShort st.code,0,0,uInt32 st.k⟩

/-- The instructions of statements that are not jumps. -/
def stmtInsns (stmts : List Stmt) : List BpfInsn :=
  (stmts.filter fun st => st.code≠nop).map stmtInsn

theorem length_stmtInsns (stmts : List Stmt) : (stmtInsns stmts).length=slength stmts := by
  rw [stmtInsns,List.length_map,slength,List.countP_eq_length_filter]

/-- Every block that the root leads to stands at its offset in the program,
with a branch whose two jumps arrive, and no jump leaves the program. -/
structure LaidOut (g : BlockGraph) (prog : List BpfInsn) (offset : ℕ → ℕ) : Prop where
  /-- The program starts with the root. -/
  root : offset g.root=0
  /-- The statements of a block stand one after the other. -/
  stmts : ∀ p, g.Reached p → ∀ i insn, (stmtInsns (g.block p).stmts)[i]?=some insn →
    prog[offset p+i]?=some insn
  /-- A return stands behind them. -/
  ret : ∀ p, g.Reached p → (g.block p).jt=none →
    prog[offset p+slength (g.block p).stmts]?=
      some ⟨uShort (g.block p).s.code,0,0,uInt32 (g.block p).s.k⟩
  /-- So does a branch, and its jumps arrive at the successors. -/
  branch : ∀ p, g.Reached p → ∀ t f, (g.block p).jt=some t → (g.block p).jf=some f →
    ∃ jt jf, prog[offset p+slength (g.block p).stmts]?=
        some ⟨uShort (g.block p).s.code,jt,jf,uInt32 (g.block p).s.k⟩ ∧
      BranchTo prog (offset p+slength (g.block p).stmts) jt (offset t) ∧
      BranchTo prog (offset p+slength (g.block p).stmts) jf (offset f)
  /-- The targets of all jumps lie inside the program. -/
  inside : ∀ i insn, prog[i]?=some insn → bpfClass insn.code=bpfJmp →
    if insn.code=bpfJmpJa then i+1+insn.k<prog.length
    else i+1+insn.jt<prog.length ∧ i+1+insn.jf<prog.length

theorem mem_reached {g : BlockGraph} {p : ℕ} (h : g.Reached p) : p∈reached g := by
  induction h with
  | refl => exact root_mem_reached g
  | tail _ hc ih => exact reached_closed g _ ih _ hc

theorem bpfClass_uShort (code : ℤ) : (bpfClass (uShort code) : ℤ)=code%8 := by
  unfold bpfClass uShort
  omega

/-- Statements that are not jumps are copied. -/
theorem fillStmts_straight {stmts : List Stmt}
    (h : ∀ st∈stmts, bpfClass (uShort st.code)≠bpfJmp) (slen off : ℕ) :
    fillStmts slen off stmts=.ok (stmtInsns stmts) := by
  induction stmts generalizing off with
  | nil => rfl
  | cons st rest ih =>
    have hrest := fun off => ih (fun x hx => h x (List.mem_cons_of_mem st hx)) off
    have hclass : st.code%8≠bpfJmp := by
      rw [← bpfClass_uShort]
      exact fun heq => h st List.mem_cons_self (by exact_mod_cast heq)
    rw [fillStmts]
    by_cases hnop : st.code=nop
    · rw [if_pos hnop,hrest,stmtInsns,stmtInsns,List.filter_cons_of_neg (by simpa using hnop)]
    · rw [if_neg hnop,fillStmt,if_pos (Or.inl hclass),hrest,stmtInsns,stmtInsns,
        List.filter_cons_of_pos (by simpa using hnop),List.map_cons]
      rfl

/-- The parts of a placed block in the program. -/
theorem Placed.parts {g : BlockGraph} (hs : g.Straight) {long : LongJumps} {l : Layout} {x : ℕ}
    (h : Placed g long l.code.length l x) :
    ∃ branch room, fillEnd g long l.offset x (l.offset x+slength (g.block x).stmts)=.ok branch ∧
      blockSize g long x=slength (g.block x).stmts+(branch.length+room) ∧
      (∀ i insn, (stmtInsns (g.block x).stmts)[i]?=some insn →
        l.code[l.offset x+i]?=some insn) ∧
      (∀ i insn, branch[i]?=some insn →
        l.code[l.offset x+slength (g.block x).stmts+i]?=some insn) ∧
      ∀ i<room, l.code[l.offset x+slength (g.block x).stmts+branch.length+i]?=some zeroInsn := by
  obtain ⟨before,block,behind,hcode,hblock,hend,-⟩ := h
  obtain ⟨stmts,branch,room,hstmts,hbranch,hparts,hlen⟩ := blockCode_ok hblock
  rw [fillStmts_straight (hs.stmts x)] at hstmts
  cases hstmts
  have hbefore : before.length=l.offset x := by
    have hlength := congrArg List.length hcode
    rw [List.length_append] at hlength
    omega
  have hget : ∀ i insn, block[i]?=some insn → l.code[l.offset x+i]?=some insn := by
    intro i insn hi
    have hlt := (List.getElem?_eq_some_iff.mp hi).1
    rw [hcode,← hbefore,List.getElem?_append_right (by omega),Nat.add_sub_cancel_left,
      List.getElem?_append_left hlt,hi]
  have hsize := hlen
  rw [hparts,List.length_append,List.length_append,List.length_replicate,length_stmtInsns] at hsize
  refine ⟨branch,room,hbranch,hsize.symm,?_,?_,?_⟩
  · intro i insn hi
    have hlt := (List.getElem?_eq_some_iff.mp hi).1
    refine hget i insn ?_
    rw [hparts,List.getElem?_append_left hlt,hi]
  · intro i insn hi
    have hlt := (List.getElem?_eq_some_iff.mp hi).1
    rw [Nat.add_assoc]
    refine hget _ insn ?_
    rw [hparts,← length_stmtInsns,List.getElem?_append_right (by omega),Nat.add_sub_cancel_left,
      List.getElem?_append_left hlt,hi]
  · intro i hi
    rw [Nat.add_assoc,Nat.add_assoc]
    refine hget _ zeroInsn ?_
    rw [hparts,← length_stmtInsns,List.getElem?_append_right (by omega),Nat.add_sub_cancel_left,
      List.getElem?_append_right (by omega),Nat.add_sub_cancel_left,List.getElem?_replicate,
      if_pos hi]

theorem Placed.succ_offset {g : BlockGraph} {long : LongJumps} {n : ℕ} {l : Layout} {x c : ℕ}
    (h : Placed g long n l x) (hc : c∈g.succ x) :
    l.offset x+slength (g.block x).stmts<l.offset c ∧ l.offset c<n := by
  obtain ⟨before,block,behind,-,hblock,-,hsucc⟩ := h
  obtain ⟨-,-,-,-,-,-,hlen⟩ := blockCode_ok hblock
  obtain ⟨-,hle,hlt⟩ := hsucc c hc
  rw [hlen,blockSize] at hle
  exact ⟨by omega,hlt⟩

/-- The branch of a placed block: both jumps arrive, and what stands behind it
are unconditional jumps inside the program. -/
theorem fillBranch_branchTo {long : LongJumps} {p pc code k t f : ℕ} {branch prog : List BpfInsn}
    (h : fillBranch long p pc code k t f=.ok branch) (ht : pc<t ∧ t<prog.length)
    (hf : pc<f ∧ f<prog.length)
    (hget : ∀ i insn, branch[i]?=some insn → prog[pc+i]?=some insn) :
    ∃ jt jf jas, branch=⟨code,jt,jf,k⟩::jas ∧ BranchTo prog pc jt t ∧ BranchTo prog pc jf f ∧
      ∀ i insn, jas[i]?=some insn →
        insn.code=bpfJmpJa ∧ pc+1+i+1+insn.k<prog.length := by
  obtain ⟨jt,jas,jf,jas',hjt,hjf,rfl⟩ := fillBranch_ok h
  have hone : jas.length≤1 := by
    unfold placeJump at hjt
    split_ifs at hjt
    · cases hjt
      exact Nat.le_refl 1
    · cases hjt
      exact Nat.zero_le 1
  have hfirst : ∀ i insn, jas[i]?=some insn → prog[pc+1+(0+i)]?=some insn := by
    intro i insn hi
    have hlt := (List.getElem?_eq_some_iff.mp hi).1
    have hplace := hget (i+1) insn (by
      rw [List.getElem?_cons_succ,List.getElem?_append_left hlt,hi])
    rw [← hplace]
    congr 1
    omega
  have hsecond : ∀ i insn, jas'[i]?=some insn → prog[pc+1+(jas.length+i)]?=some insn := by
    intro i insn hi
    have hplace := hget (jas.length+i+1) insn (by
      rw [List.getElem?_cons_succ,List.getElem?_append_right (by omega),Nat.add_sub_cancel_left,hi])
    rw [← hplace]
    congr 1
    omega
  refine ⟨jt,jf,jas++jas',rfl,placeJump_branchTo hjt ht.1 (by omega) ht.2 hfirst,
    placeJump_branchTo hjf hf.1 (by omega) hf.2 hsecond,?_⟩
  intro i insn hi
  by_cases hlt : i<jas.length
  · rw [List.getElem?_append_left hlt] at hi
    obtain ⟨hcode,htarget⟩ := placeJump_ja hjt (by omega) hi
    exact ⟨hcode,by omega⟩
  · rw [List.getElem?_append_right (by omega)] at hi
    obtain ⟨hcode,htarget⟩ := placeJump_ja hjf (by omega) hi
    exact ⟨hcode,by omega⟩

/-- The instruction at the end of a placed block, and those behind it. -/
theorem Placed.inside {g : BlockGraph} (hs : g.Straight) {long : LongJumps} {l : Layout} {x i : ℕ}
    {insn : BpfInsn} (h : Placed g long l.code.length l x) (hge : l.offset x ≤ i)
    (hlt : i<l.offset x+blockSize g long x) (hinsn : l.code[i]?=some insn)
    (hclass : bpfClass insn.code=bpfJmp) :
    if insn.code=bpfJmpJa then i+1+insn.k<l.code.length
    else i+1+insn.jt<l.code.length ∧ i+1+insn.jf<l.code.length := by
  obtain ⟨branch,room,hend,hsize,hstmts,hbranch,hroom⟩ := h.parts hs
  by_cases hfirst : i<l.offset x+slength (g.block x).stmts
  · exfalso
    have hin : i-l.offset x<(stmtInsns (g.block x).stmts).length := by
      rw [length_stmtInsns]
      omega
    have hget := hstmts (i-l.offset x) _ (List.getElem?_eq_getElem hin)
    rw [Nat.add_sub_cancel' hge,hinsn] at hget
    obtain ⟨st,hst,heq⟩ := List.mem_map.mp (List.getElem_mem hin)
    cases hget
    rw [← heq] at hclass
    exact hs.stmts x st (List.mem_of_mem_filter hst) hclass
  · obtain ⟨j,rfl⟩ : ∃ j, i=l.offset x+slength (g.block x).stmts+j := 
      ⟨i-l.offset x-slength (g.block x).stmts,by omega⟩
    by_cases hsecond : j<branch.length
    · have hget := hbranch j _ (List.getElem?_eq_getElem hsecond)
      have hj : branch[j]?=some insn := by
        rw [List.getElem?_eq_getElem hsecond,← hget,hinsn]
      rcases hs.ends x with ⟨ht,-,hret⟩ | ⟨t,f,ht,hf,hjmp,hja⟩
      · exfalso
        simp only [fillEnd,ht] at hend
        cases hend
        obtain rfl : j=0 := by simpa using hsecond
        cases hj
        rw [hret] at hclass
        cases hclass
      · simp only [fillEnd,ht,hf] at hend
        obtain ⟨jt,jf,jas,rfl,htoT,htoF,hjas⟩ := fillBranch_branchTo hend
          (h.succ_offset (mem_succ.mpr (Or.inl ht))) (h.succ_offset (mem_succ.mpr (Or.inr hf)))
          hbranch
        cases j with
        | zero =>
          cases hj
          rw [if_neg hja]
          exact ⟨htoT.lt_length,htoF.lt_length⟩
        | succ j =>
          obtain ⟨hcode,htarget⟩ := hjas j insn hj
          rw [if_pos hcode]
          omega
    · exfalso
      have hget := hroom (j-branch.length) (by omega)
      rw [show l.offset x+slength (g.block x).stmts+branch.length+(j-branch.length)=
        l.offset x+slength (g.block x).stmts+j by omega,hinsn] at hget
      cases hget
      cases hclass

/-- A try that succeeds lays the graph out. -/
theorem tryLayout_laidOut {g : BlockGraph} (hs : g.Straight) {long : LongJumps} {l : Layout}
    (h : tryLayout g long=.ok l) : LaidOut g l.code l.offset := by
  obtain ⟨-,hroot,hplaced,hcover⟩ := tryLayout_ok h
  refine ⟨hroot,?_,?_,?_,?_⟩
  · intro p hp
    obtain ⟨-,-,-,-,hstmts,-,-⟩ := (hplaced p (mem_reached hp)).parts hs
    exact hstmts
  · intro p hp hnone
    obtain ⟨branch,room,hend,-,-,hbranch,-⟩ := (hplaced p (mem_reached hp)).parts hs
    simp only [fillEnd,hnone] at hend
    cases hend
    exact hbranch 0 _ rfl
  · intro p hp t f ht hf
    have hpl := hplaced p (mem_reached hp)
    obtain ⟨branch,room,hend,-,-,hbranch,-⟩ := hpl.parts hs
    simp only [fillEnd,ht,hf] at hend
    obtain ⟨jt,jf,jas,rfl,htoT,htoF,-⟩ := fillBranch_branchTo hend
      (hpl.succ_offset (mem_succ.mpr (Or.inl ht))) (hpl.succ_offset (mem_succ.mpr (Or.inr hf)))
      hbranch
    exact ⟨jt,jf,hbranch 0 _ rfl,htoT,htoF⟩
  · intro i insn hinsn hclass
    obtain ⟨x,hx,hge,hlt⟩ := hcover i (List.getElem?_eq_some_iff.mp hinsn).1
    exact (hplaced x hx).inside hs hge hlt hinsn hclass

/-! ## Execution -/

section Execution

variable {σ ρ : Type} {M : Machine σ ρ} {prog : List BpfInsn}

/-- Statements that stand in the program one after the other are executed so. -/
theorem run_stmts {stmts : List Stmt} (hs : ∀ st∈stmts, bpfClass (uShort st.code)≠bpfJmp) {pc : ℕ}
    (hprog : ∀ i insn, (stmtInsns stmts)[i]?=some insn → prog[pc+i]?=some insn) (s : σ) :
    M.run prog pc s=
      match M.runStmts stmts s with
      | (events,.error r) => (events,some r)
      | (events,.ok s') =>
        (events++(M.run prog (pc+slength stmts) s').1,(M.run prog (pc+slength stmts) s').2) := by
  induction stmts generalizing pc s with
  | nil => rfl
  | cons st rest ih =>
    have hrest := fun x hx => hs x (List.mem_cons_of_mem st hx)
    rw [Machine.runStmts]
    by_cases hnop : st.code=nop
    · have hinsns : stmtInsns (st::rest)=stmtInsns rest := by
        rw [stmtInsns,stmtInsns,List.filter_cons_of_neg (by simpa using hnop)]
      rw [hinsns] at hprog
      rw [if_pos hnop,← length_stmtInsns,hinsns,length_stmtInsns]
      exact ih hrest hprog s
    · have hinsns : stmtInsns (st::rest)=stmtInsn st::stmtInsns rest := by
        rw [stmtInsns,stmtInsns,List.filter_cons_of_pos (by simpa using hnop),List.map_cons]
      rw [hinsns] at hprog
      rw [if_neg hnop,← length_stmtInsns,hinsns,List.length_cons,length_stmtInsns]
      have hget : prog[pc]?=some (stmtInsn st) := hprog 0 _ rfl
      rw [Machine.run_exec hget (hs st List.mem_cons_self)]
      dsimp only [stmtInsn]
      cases M.exec (uShort st.code) (uInt32 st.k) s with
      | error r => rfl
      | ok s' =>
        have hshift : ∀ i insn, (stmtInsns rest)[i]?=some insn → prog[pc+1+i]?=some insn := by
          intro i insn hi
          rw [Nat.add_assoc,Nat.add_comm 1 i]
          exact hprog (i+1) insn hi
        have hnext := ih hrest hshift s'
        dsimp only
        rw [hnext,show pc+1+slength rest=pc+(slength rest+1) by omega]
        cases M.runStmts rest s' with
        | mk events outcome =>
          cases outcome with
          | error r => rfl
          | ok s'' => rfl

/-- From the place of a block the program runs as the graph from the block. -/
theorem LaidOut.run {g : BlockGraph} (hs : g.Straight) {offset : ℕ → ℕ}
    (h : LaidOut g prog offset) {p : ℕ} (hp : g.Reached p) (s : σ) :
    M.run prog (offset p) s=M.runBlock g (some p) s := by
  generalize hrank : g.rank p=rank
  induction rank using Nat.strong_induction_on generalizing p s with
  | h rank ih =>
    rw [run_stmts (hs.stmts p) (h.stmts p hp),Machine.runBlock]
    cases hrun : M.runStmts (g.block p).stmts s with
    | mk events outcome =>
      cases outcome with
      | error r => rfl
      | ok s' =>
        dsimp only
        rcases hs.ends p with ⟨ht,-,hret⟩ | ⟨t,f,ht,hf,hjmp,hja⟩
        · have hclass : bpfClass (uShort (g.block p).s.code)≠bpfJmp := by
            rw [hret]
            exact fun heq => by cases heq
          obtain ⟨r,hr⟩ := M.ret _ (uInt32 (g.block p).s.k) s' hret
          rw [Machine.run_exec (h.ret p hp ht) hclass,if_neg hclass]
          dsimp only
          rw [hr]
        · obtain ⟨jt,jf,hget,htoT,htoF⟩ := h.branch p hp t f ht hf
          have hmemT := mem_succ.mpr (Or.inl ht)
          have hmemF := mem_succ.mpr (Or.inr hf)
          have hrunT := ih _ (by rw [← hrank]; exact rank_succ hmemT) (hp.tail hmemT) s' rfl
          have hrunF := ih _ (by rw [← hrank]; exact rank_succ hmemF) (hp.tail hmemF) s' rfl
          rw [Machine.run_branch hget hjmp hja,if_pos hjmp,ht,hf]
          dsimp only
          rw [htoT.run,htoF.run,hrunT,hrunF]
          split_ifs <;> rfl

end Execution

/-- Without jumps among the statements a layout only ever stops for another try. -/
theorem tryLayout_error {g : BlockGraph} (hs : g.Straight) {long : LongJumps} {stop : Stop}
    (h : tryLayout g long=.error stop) : ∃ long', stop=.retry long' := by
  have hblock : ∀ n p l stop, placeBlock g long n p l=.error stop →
      ∃ long', stop=.retry long' := by
    intro n p l stop hstop
    rcases bind_eq_error.mp hstop with hstop | ⟨block,-,hstop⟩
    · rcases bind_eq_error.mp hstop with hstop | ⟨stmts,-,hstop⟩
      · rw [fillStmts_straight (hs.stmts p)] at hstop
        cases hstop
      · rcases bind_eq_error.mp hstop with hstop | ⟨branch,-,hstop⟩
        · rcases hs.ends p with ⟨ht,-,-⟩ | ⟨t,f,ht,hf,-,-⟩
          · simp only [fillEnd,ht] at hstop
            cases hstop
          · simp only [fillEnd,ht,hf] at hstop
            obtain ⟨long',heq,-⟩ := fillBranch_error hstop
            exact ⟨long',heq⟩
        · cases hstop
    · cases hstop
  have hconvert : ∀ size n p l stop, g.height p=size → convertCodeR g long n p l=.error stop →
      ∃ long', stop=.retry long' := by
    intro size
    induction size using Nat.strong_induction_on with
    | h size ih =>
      intro n p l stop hsize hstop
      cases p with
      | none =>
        rw [convertCodeR] at hstop
        cases hstop
      | some p =>
        rw [convertCodeR] at hstop
        split_ifs at hstop
        rcases bind_eq_error.mp hstop with hstop | ⟨l1,-,hstop⟩
        · exact ih _ (by rw [← hsize]; exact g.height_jf p) n _ _ _ rfl hstop
        · rcases bind_eq_error.mp hstop with hstop | ⟨l2,-,hstop⟩
          · exact ih _ (by rw [← hsize]; exact g.height_jt p) n _ _ _ rfl hstop
          · exact hblock n p l2 stop hstop
  exact hconvert _ _ _ _ _ rfl h

/-- The loop ends with the program of a try that succeeds. -/
theorem layoutLoop_ok {g : BlockGraph} (hs : g.Straight) (long : LongJumps) :
    ∃ long' l, tryLayout g long'=.ok l ∧ layoutLoop g long=.ok l.code := by
  induction long using layoutLoop.induct g with
  | case1 long l h =>
    refine ⟨long,l,h,?_⟩
    rw [layoutLoop]
    split
    · rename_i l' heq
      cases h.symm.trans heq
      rw [← (tryLayout_ok h).1,Nat.sub_self]
      rfl
    · rename_i heq
      cases h.symm.trans heq
    · rename_i heq
      cases h.symm.trans heq
  | case2 long long' h ih =>
    obtain ⟨final,l,hl,hok⟩ := ih
    refine ⟨final,l,hl,?_⟩
    rw [layoutLoop]
    split
    · rename_i heq
      cases h.symm.trans heq
    · rename_i raised heq
      cases h.symm.trans heq
      exact hok
    · rename_i hne heq
      exact absurd (Except.error.inj (heq.symm.trans h)) (hne long')
  | case3 long stop hne h =>
    obtain ⟨long',heq⟩ := tryLayout_error hs h
    exact absurd heq (hne long')

/-- A run of the graph ends with a result. -/
theorem runBlock_result {g : BlockGraph} (hs : g.Straight) {σ ρ : Type} (M : Machine σ ρ) (p : ℕ)
    (s : σ) : ∃ r, (M.runBlock g (some p) s).2=some r := by
  generalize hrank : g.rank p=rank
  induction rank using Nat.strong_induction_on generalizing p s with
  | h rank ih =>
    rw [Machine.runBlock]
    cases M.runStmts (g.block p).stmts s with
    | mk events outcome =>
      cases outcome with
      | error r => exact ⟨r,rfl⟩
      | ok s' =>
        dsimp only
        rcases hs.ends p with ⟨-,-,hret⟩ | ⟨t,f,ht,hf,hjmp,-⟩
        · obtain ⟨r,hr⟩ := M.ret _ (uInt32 (g.block p).s.k) s' hret
          rw [if_neg (by rw [hret]; exact fun heq => by cases heq),hr]
          exact ⟨r,rfl⟩
        · rw [if_pos hjmp,ht,hf]
          split_ifs
          · exact ih _ (by rw [← hrank]; exact g.rank_jt p t ht) t s' rfl
          · exact ih _ (by rw [← hrank]; exact g.rank_jf p f hf) f s' rfl

/-- For every acyclic graph without jumps among its statements the code
generator returns a program that has every block in its place, whose branches
arrive with displacements of 8 bits, through one unconditional jump when they
are farther than 255 instructions, and that executes on every machine and
every packet the statements and branch decisions of the graph. -/
theorem icodeToFcode_refines (g : BlockGraph) (hs : g.Straight) :
    ∃ prog offset, icodeToFcode g=.ok prog ∧ LaidOut g prog offset ∧
      ∀ (σ ρ : Type) (M : Machine σ ρ) (s : σ),
        M.run prog 0 s=M.runBlock g (some g.root) s ∧ ∃ r, (M.run prog 0 s).2=some r := by
  obtain ⟨long,l,hl,hok⟩ :=
    layoutLoop_ok hs ⟨fun p => (g.block p).longjt,fun p => (g.block p).longjf⟩
  have hlaid := tryLayout_laidOut hs hl
  refine ⟨l.code,l.offset,hok,hlaid,fun σ ρ M s => ?_⟩
  have hrun : M.run l.code 0 s=M.runBlock g (some g.root) s := by
    have hroot := hlaid.run hs (M := M) Relation.ReflTransGen.refl s
    rwa [hlaid.root] at hroot
  refine ⟨hrun,?_⟩
  rw [hrun]
  exact runBlock_result hs M g.root s

/-- The filter `if half-word 12 is 0x800 then (300 loads; accept) else reject`,
whose branch to the rejecting block is a long one. -/
def longFilter : BlockGraph where
  block
    | 0 => ⟨[⟨0x28,none,none,12⟩],⟨0x15,none,none,0x800⟩,some 1,some 2,0,0⟩
    | 1 => ⟨List.replicate 300 ⟨0x30,none,none,14⟩,⟨6,none,none,65535⟩,none,none,0,0⟩
    | _ => ⟨[],⟨6,none,none,0⟩,none,none,0,0⟩
  root := 0
  rank p := if p=0 then 1 else 0
  rank_jt p c h := by
    match p with
    | 0 =>
      cases h
      exact Nat.zero_lt_one
    | 1 => cases h
    | p+2 => cases h
  rank_jf p c h := by
    match p with
    | 0 =>
      cases h
      exact Nat.zero_lt_one
    | 1 => cases h
    | p+2 => cases h

theorem longFilter_straight : longFilter.Straight where
  stmts p st h := by
    match p with
    | 0 =>
      rw [List.mem_singleton.mp h]
      decide
    | 1 =>
      rw [List.eq_of_mem_replicate h]
      decide
    | p+2 => cases h
  ends p := by
    match p with
    | 0 => exact Or.inr ⟨1,2,rfl,rfl,rfl,by decide⟩
    | 1 => exact Or.inl ⟨rfl,rfl,rfl⟩
    | p+2 => exact Or.inl ⟨rfl,rfl,rfl⟩

theorem icodeToFcode_refines_long : ∃ prog offset, icodeToFcode longFilter=.ok prog ∧
    LaidOut longFilter prog offset ∧ ∀ (σ ρ : Type) (M : Machine σ ρ) (s : σ),
      M.run prog 0 s=M.runBlock longFilter (some 0) s ∧ ∃ r, (M.run prog 0 s).2=some r :=
  icodeToFcode_refines longFilter longFilter_straight

end AndroidPlatform.BpfLayout
