import AndroidPlatform.NativeAppGlue

/-!
# Hand-over of the saved state in native_app_glue

The app thread releases the saved state when it reads a request to save, after
a resume and on its way out; the activity thread takes it over at the end of
`onSaveInstanceState`. All steps of the protocol are first sorted by what they
do to the saved state. A request to save is the last command in the pipe until
its caller returns, which keeps every release out of the time between the
handler and the return.
-/

namespace AndroidPlatform.NativeAppGlueSavedState

open TransitionSystem NativeAppGlue

variable {W Q : Type}

/-- The events of the saved state. -/
def isSaveEvent : Event W → Bool
  | .saveCall => true
  | .saveHandled _ => true
  | .saveReturn _ => true
  | .freed _ => true
  | _ => false

/-- The activity thread has asked the app thread to end. -/
def ending : Activity W → Bool
  | .freeing => true
  | .finished => true
  | _ => false

/-- Nothing about the saved state changes. -/
structure Same (s t : State W Q) : Prop where
  savedState : t.app.savedState=s.app.savedState
  stateSaved : t.app.stateSaved=s.app.stateSaved
  nextBuffer : t.nextBuffer=s.nextBuffer
  log : t.log=s.log ∨ ∃ event, t.log=s.log++[event] ∧ isSaveEvent event=false

/-- The steps in which the app thread releases the saved state. -/
inductive Releasing : AppThread → AppThread → Prop
  | readSave : Releasing .readSave (.preExec .saveState)
  | resume : Releasing (.postExec .resume) .looping
  | destroy : Releasing .destroying .destroyingFreed

/-- The remaining steps of the app thread between two reads. -/
inductive Moving : AppThread → AppThread → Prop
  | preExec (cmd : Cmd) : Moving (.preExec cmd) (.onAppCmd cmd)
  | onAppCmd (cmd : Cmd) : cmd≠.saveState → Moving (.onAppCmd cmd) (.postExec cmd)
  | postExec (cmd : Cmd) : cmd≠.saveState → cmd≠.resume → Moving (.postExec cmd) .looping
  | exit : Moving .destroyingFreed .exited

/-- What a step does to the saved state. -/
inductive SaveStep (s t : State W Q) : Prop
  /-- A callback other than `onSaveInstanceState`. -/
  | write (cmds : List Cmd) (hidle : s.activity=.idle) (hact : t.activity≠.saving)
      (hsave : .saveState∉cmds) (hdestroy : ending t.activity=false → .destroy∉cmds)
      (hpipe : t.app.pipe=s.app.pipe++cmds) (hth : t.appThread=s.appThread)
      (hreq : t.app.destroyRequested=s.app.destroyRequested) (hsame : Same s t)
  /-- The call of `onSaveInstanceState`. -/
  | call (hidle : s.activity=.idle)
      (ht : t={s with
        app := {s.app with stateSaved := false, pipe := s.app.pipe++[.saveState]}
        activity := .saving
        log := s.log++[.saveCall]})
  /-- The return of `onSaveInstanceState`. -/
  | ret (hact : s.activity=.saving) (hsaved : s.app.stateSaved=true)
      (ht : t={s with
        app := {s.app with savedState := none}
        activity := .idle
        log := s.log++[.saveReturn s.app.savedState]})
  /-- The return of another callback. -/
  | wake (hs : s.activity≠.saving) (ht : t.activity≠.saving)
      (hend : ending t.activity=ending s.activity) (happ : t.app=s.app)
      (hth : t.appThread=s.appThread) (hsame : Same s t)
  /-- The app thread reads a command. -/
  | read (cmd : Cmd) (rest : List Cmd) (hs : s.appThread=.looping)
      (hpipe : s.app.pipe=cmd::rest)
      (ht : t={s with
        app := {s.app with pipe := rest}
        appThread := if cmd=.saveState then .readSave else .preExec cmd})
  /-- The app thread releases the saved state. -/
  | release (hth : Releasing s.appThread t.appThread)
      (ht : t={freeSavedState s with appThread := t.appThread})
  /-- The handler of a request to save, storing a state or none. -/
  | handled (stored : Option ℕ) (hs : s.appThread=.onAppCmd .saveState)
      (ht : t={onAppCmd s stored .saveState with appThread := .postExec .saveState})
  /-- The end of a request to save. -/
  | saved (hs : s.appThread=.postExec .saveState)
      (ht : t={s with app := {s.app with stateSaved := true}, appThread := .looping})
  /-- Another step of the app thread. -/
  | move (hth : Moving s.appThread t.appThread) (hact : t.activity=s.activity)
      (hpipe : t.app.pipe=s.app.pipe)
      (hreq : t.app.destroyRequested=true → s.app.destroyRequested=true ∨
        s.appThread=.preExec .destroy) (hsame : Same s t)
  /-- `android_main` returns. -/
  | quit (hs : s.appThread=.looping) (hreq : s.app.destroyRequested=true)
      (ht : t={s with appThread := .destroying})

theorem saveStep_writeOnly {s : State W Q} (hidle : s.activity=.idle) {cmd : Cmd}
    (hs : cmd≠.saveState) (hd : cmd≠.destroy) : SaveStep s (writeOnly s cmd) := by
  refine .write [cmd] hidle ?_ ?_ ?_ rfl rfl rfl ⟨rfl,rfl,rfl,Or.inl rfl⟩
  · change s.activity≠.saving
    rw [hidle]
    exact fun h => by cases h
  · rw [List.mem_singleton]
    exact hs.symm
  · rw [List.mem_singleton]
    exact fun _ => hd.symm

theorem saveStep_setActivityState {s : State W Q} (hidle : s.activity=.idle) {cmd : Cmd}
    (hs : cmd≠.saveState) (hd : cmd≠.destroy) :
    SaveStep s (androidAppSetActivityState s cmd) := by
  refine .write [cmd] hidle (fun h => by cases h) ?_ ?_ rfl rfl rfl ⟨rfl,rfl,rfl,Or.inl rfl⟩
  · rw [List.mem_singleton]
    exact hs.symm
  · rw [List.mem_singleton]
    exact fun _ => hd.symm

theorem saveStep_setWindow {s : State W Q} (hidle : s.activity=.idle) (window : Option W) :
    SaveStep s (androidAppSetWindow s window) := by
  refine .write ((if s.app.pendingWindow.isSome then [.termWindow] else [])++
    (if window.isSome then [.initWindow] else [])) hidle (fun h => by cases h) ?_ ?_ ?_ rfl ?_ ?_
  · cases s.app.pendingWindow <;> cases window <;> simp
  · intro _
    cases s.app.pendingWindow <;> cases window <;> simp
  · unfold androidAppSetWindow androidAppWriteCmd
    cases s.app.pendingWindow <;> cases window <;> simp
  · unfold androidAppSetWindow androidAppWriteCmd
    cases s.app.pendingWindow <;> cases window <;> rfl
  · unfold androidAppSetWindow androidAppWriteCmd
    constructor
    · cases s.app.pendingWindow <;> cases window <;> rfl
    · cases s.app.pendingWindow <;> cases window <;> rfl
    · rfl
    · exact Or.inr ⟨_,rfl,rfl⟩

theorem saveStep_setInput {s : State W Q} (hidle : s.activity=.idle) (queue : Option Q) :
    SaveStep s (androidAppSetInput s queue) :=
  .write [.inputChanged] hidle (fun h => by cases h) (by decide) (fun _ => by decide) rfl rfl rfl
    ⟨rfl,rfl,rfl,Or.inl rfl⟩

theorem saveStep_callback {s : State W Q} (hidle : s.activity=.idle) (c : Callback W Q) :
    SaveStep s (callback s c) := by
  cases c with
  | onStart => exact saveStep_setActivityState hidle (by decide) (by decide)
  | onResume => exact saveStep_setActivityState hidle (by decide) (by decide)
  | onPause => exact saveStep_setActivityState hidle (by decide) (by decide)
  | onStop => exact saveStep_setActivityState hidle (by decide) (by decide)
  | onSaveInstanceState => exact .call hidle rfl
  | onConfigurationChanged => exact saveStep_writeOnly hidle (by decide) (by decide)
  | onLowMemory => exact saveStep_writeOnly hidle (by decide) (by decide)
  | onWindowFocusChanged focused =>
    cases focused with
    | false => exact saveStep_writeOnly hidle (by decide) (by decide)
    | true => exact saveStep_writeOnly hidle (by decide) (by decide)
  | onNativeWindowCreated window => exact saveStep_setWindow hidle window
  | onNativeWindowDestroyed => exact saveStep_setWindow hidle none
  | onInputQueueCreated queue => exact saveStep_setInput hidle queue
  | onInputQueueDestroyed => exact saveStep_setInput hidle none
  | onDestroy =>
    exact .write [.destroy] hidle (fun h => by cases h) (by decide) (fun h => by cases h) rfl rfl
      rfl ⟨rfl,rfl,rfl,Or.inl rfl⟩

theorem saveStep_wake [DecidableEq W] [DecidableEq Q] {s t : State W Q} (h : wake s=some t) :
    SaveStep s t := by
  unfold wake at h
  split at h
  · cases h
  · next hact =>
    split at h
    · cases h
      exact .wake (by rw [hact]; exact nofun) nofun (by rw [hact]; rfl) rfl rfl
        ⟨rfl,rfl,rfl,Or.inr ⟨_,rfl,rfl⟩⟩
    · cases h
  · next hact =>
    split at h
    · cases h
      exact .wake (by rw [hact]; exact nofun) nofun (by rw [hact]; rfl) rfl rfl
        ⟨rfl,rfl,rfl,Or.inl rfl⟩
    · cases h
  · next hact =>
    split at h
    · cases h
      exact .wake (by rw [hact]; exact nofun) nofun (by rw [hact]; rfl) rfl rfl
        ⟨rfl,rfl,rfl,Or.inl rfl⟩
    · cases h
  · next hact =>
    split at h
    · next hsaved =>
      cases h
      exact .ret hact hsaved rfl
    · cases h
  · next hact =>
    split at h
    · cases h
      exact .wake (by rw [hact]; exact nofun) nofun (by rw [hact]; rfl) rfl rfl
        ⟨rfl,rfl,rfl,Or.inl rfl⟩
    · cases h
  · cases h

theorem androidAppPreExecCmd_same (s : State W Q) (cmd : Cmd) :
    Same s {s with app := androidAppPreExecCmd s.app cmd, appThread := .onAppCmd cmd} := by
  cases cmd <;> exact ⟨rfl,rfl,rfl,Or.inl rfl⟩

theorem saveStep_appStep {s t : State W Q} {stored : Option ℕ} (h : appStep s stored=some t) :
    SaveStep s t := by
  unfold appStep at h
  split at h
  · next hth =>
    split at h
    · cases h
    · next cmd rest hpipe =>
      cases h
      exact .read cmd rest hth hpipe rfl
  · next hth =>
    cases h
    exact .release (hth ▸ .readSave) rfl
  · next cmd hth =>
    cases h
    refine .move (hth ▸ .preExec cmd) rfl ?_ ?_ (androidAppPreExecCmd_same s cmd)
    · cases cmd <;> rfl
    · rw [hth]
      cases cmd with
      | destroy => exact fun _ => Or.inr rfl
      | _ => exact Or.inl
  · next cmd hth =>
    cases h
    cases cmd with
    | saveState => exact .handled stored hth rfl
    | termWindow =>
      exact .move (hth ▸ .onAppCmd _ (by decide)) rfl rfl Or.inl ⟨rfl,rfl,rfl,Or.inr ⟨_,rfl,rfl⟩⟩
    | _ => exact .move (hth ▸ .onAppCmd _ (by decide)) rfl rfl Or.inl ⟨rfl,rfl,rfl,Or.inl rfl⟩
  · next cmd hth =>
    cases h
    cases cmd with
    | saveState => exact .saved hth rfl
    | resume => exact .release (hth ▸ .resume) rfl
    | _ =>
      exact .move (hth ▸ .postExec _ (by decide) (by decide)) rfl rfl Or.inl
        ⟨rfl,rfl,rfl,Or.inl rfl⟩
  · next hth =>
    cases h
    exact .release (hth ▸ .destroy) rfl
  · next hth =>
    cases h
    exact .move (hth ▸ .exit) rfl rfl Or.inl ⟨rfl,rfl,rfl,Or.inl rfl⟩
  · cases h

/-- Every step of the protocol is one of these. -/
theorem saveStep_next [DecidableEq W] [DecidableEq Q] {s t : State W Q} {a : Action W Q}
    (h : next s a=some t) : SaveStep s t := by
  cases a with
  | callback c =>
    rw [next] at h
    split at h
    · next hidle =>
      cases h
      exact saveStep_callback hidle c
    · cases h
  | wake => exact saveStep_wake h
  | appStep stored => exact saveStep_appStep h
  | quit =>
    rw [next,NativeAppGlue.quit] at h
    split at h
    · next hq =>
      cases h
      exact .quit hq.1 hq.2 rfl
    · cases h

theorem freeSavedState_eq (s : State W Q) : freeSavedState s={s with
    app := {s.app with savedState := none}
    log := s.log++(s.app.savedState.map fun saved => .freed saved.buffer).toList} := by
  unfold freeSavedState
  split
  · next hnone =>
    rw [hnone]
    simp only [Option.map_none,Option.toList_none,List.append_nil]
    rw [←hnone]
  · next saved hsome =>
    rw [hsome]
    rfl

/-- The app thread is on its way out, or about to be told so. -/
def leaving : AppThread → Bool
  | .preExec .destroy => true
  | .destroying => true
  | .destroyingFreed => true
  | .exited => true
  | _ => false

theorem Releasing.leaving {a b : AppThread} (h : Releasing a b) (ha : leaving a=false) :
    leaving b=false := by
  cases h with
  | readSave => rfl
  | resume => rfl
  | destroy => cases ha

theorem Moving.leaving {a b : AppThread} (h : Moving a b) (ha : leaving a=false) :
    leaving b=false := by
  cases h with
  | preExec cmd => rfl
  | onAppCmd cmd => rfl
  | postExec cmd => rfl
  | exit => cases ha

/-- As long as nothing is being ended, the app thread was not told to. -/
def Staying (s : State W Q) : Prop :=
  ending s.activity=false →
    .destroy∉s.app.pipe ∧ leaving s.appThread=false ∧ s.app.destroyRequested=false

theorem Staying.step {s t : State W Q} (h : Staying s) (hstep : SaveStep s t) : Staying t := by
  intro hend
  cases hstep with
  | write cmds hidle hact hsave hdestroy hpipe hth hreq =>
    obtain ⟨hd,hl,hr⟩ := h (by rw [hidle]; rfl)
    rw [hpipe,hth,hreq,List.mem_append]
    exact ⟨fun hm => hm.elim hd (hdestroy hend),hl,hr⟩
  | call hidle ht =>
    obtain ⟨hd,hl,hr⟩ := h (by rw [hidle]; rfl)
    subst ht
    refine ⟨?_,hl,hr⟩
    simpa using hd
  | ret hact hsaved ht =>
    obtain ⟨hd,hl,hr⟩ := h (by rw [hact]; rfl)
    subst ht
    exact ⟨hd,hl,hr⟩
  | wake hs ht hends happ hth =>
    rw [happ,hth]
    exact h (hends ▸ hend)
  | read cmd rest hs hpipe ht =>
    subst ht
    obtain ⟨hd,hl,hr⟩ := h hend
    rw [hpipe,List.mem_cons,not_or] at hd
    refine ⟨hd.2,?_,hr⟩
    cases cmd with
    | destroy => exact absurd rfl hd.1
    | _ => rfl
  | release hth ht =>
    rw [freeSavedState_eq] at ht
    rw [ht] at hend ⊢
    obtain ⟨hd,hl,hr⟩ := h hend
    exact ⟨hd,hth.leaving hl,hr⟩
  | handled stored hs ht =>
    subst ht
    cases stored with
    | none =>
      obtain ⟨hd,-,hr⟩ := h hend
      exact ⟨hd,rfl,hr⟩
    | some size =>
      obtain ⟨hd,-,hr⟩ := h hend
      exact ⟨hd,rfl,hr⟩
  | saved hs ht =>
    subst ht
    obtain ⟨hd,-,hr⟩ := h hend
    exact ⟨hd,rfl,hr⟩
  | move hth hact hpipe hreq =>
    rw [hact] at hend
    obtain ⟨hd,hl,hr⟩ := h hend
    rw [hpipe]
    refine ⟨hd,hth.leaving hl,?_⟩
    by_contra hne
    rcases hreq (by simpa using hne) with hold|hpre
    · rw [hr] at hold
      cases hold
    · rw [hpre] at hl
      cases hl
  | quit hs hreq ht =>
    subst ht
    obtain ⟨-,-,hr⟩ := h hend
    rw [hr] at hreq
    cases hreq

/-- A request to save that was read and not yet answered. -/
def saveInHand : AppThread → Bool
  | .readSave => true
  | .preExec .saveState => true
  | .onAppCmd .saveState => true
  | .postExec .saveState => true
  | _ => false

theorem Releasing.saveInHand {a b : AppThread} (h : Releasing a b) :
    saveInHand b=saveInHand a := by
  cases h <;> rfl

theorem Moving.saveInHand {a b : AppThread} (h : Moving a b) : saveInHand b=saveInHand a := by
  cases h with
  | preExec cmd => cases cmd <;> rfl
  | onAppCmd cmd => cases cmd <;> rfl
  | postExec cmd hne => cases cmd <;> first | rfl | exact absurd rfl hne
  | exit => rfl

/-- The states stored by the handlers in this part of the log. -/
def handledStates : List (Event W) → List (Option Saved) :=
  List.filterMap fun
    | .saveHandled stored => some stored
    | _ => none

/-- Start or end of `onSaveInstanceState`. -/
def isSaveEdge : Event W → Bool
  | .saveCall => true
  | .saveReturn _ => true
  | _ => false

/-- How far a request to save has come, with the log since its call. -/
inductive Request (s : State W Q) (since : List (Event W)) : Prop
  /-- It is the last command in the pipe. -/
  | piped (before : List Cmd) (hpipe : s.app.pipe=before++[.saveState])
      (hbefore : .saveState∉before) (hhand : saveInHand s.appThread=false)
      (hsaved : s.app.stateSaved=false) (hh : handledStates since=[])
  /-- It was read, and the last state is still to be released. -/
  | read (hpipe : s.app.pipe=[]) (hth : s.appThread=.readSave)
      (hsaved : s.app.stateSaved=false) (hh : handledStates since=[])
  /-- It is about to be handled; nothing is stored. -/
  | ready (hpipe : s.app.pipe=[])
      (hth : s.appThread=.preExec .saveState ∨ s.appThread=.onAppCmd .saveState)
      (hnone : s.app.savedState=none)
      (hsaved : s.app.stateSaved=false) (hh : handledStates since=[])
  /-- It was handled. -/
  | handled (hpipe : s.app.pipe=[]) (hth : s.appThread=.postExec .saveState)
      (hsaved : s.app.stateSaved=false) (hh : handledStates since=[s.app.savedState])
  /-- The activity thread may return. -/
  | saved (hpipe : s.app.pipe=[]) (hth : s.appThread=.looping)
      (hsaved : s.app.stateSaved=true) (hh : handledStates since=[s.app.savedState])

/-- The invariant of the hand-over. -/
structure SaveInv (s : State W Q) : Prop where
  /-- Outside `onSaveInstanceState` no request to save is under way. -/
  outside : s.activity≠.saving → .saveState∉s.app.pipe ∧ saveInHand s.appThread=false
  /-- Inside it there is exactly one. -/
  inside : s.activity=.saving → ∃ before since, s.log=before++.saveCall::since ∧
    (∀ e∈since, isSaveEdge e=false) ∧ Request s since

/-- Neither an edge of a call nor a handled request. -/
def quiet : Event W → Bool
  | .saveCall => false
  | .saveHandled _ => false
  | .saveReturn _ => false
  | _ => true

theorem handledStates_append_quiet {since extra : List (Event W)}
    (h : ∀ e∈extra, quiet e=true) : handledStates (since++extra)=handledStates since := by
  have hnil : handledStates extra=[] := by
    rw [handledStates,List.filterMap_eq_nil_iff]
    intro e he
    have hq := h e he
    cases e with
    | saveHandled stored => cases hq
    | _ => rfl
  rw [handledStates,List.filterMap_append] at *
  rw [hnil,List.append_nil]

theorem isSaveEdge_of_quiet {e : Event W} (h : quiet e=true) : isSaveEdge e=false := by
  cases e <;> first | rfl | cases h

theorem Same.quietLog {s t : State W Q} (h : Same s t) :
    ∃ extra, t.log=s.log++extra ∧ ∀ e∈extra, quiet e=true := by
  rcases h.log with hlog|⟨event,hlog,he⟩
  · exact ⟨[],by rw [hlog,List.append_nil],by simp⟩
  · refine ⟨[event],hlog,?_⟩
    intro e hm
    rw [List.mem_singleton.mp hm]
    cases event <;> first | rfl | cases he

theorem freeSavedState_quietLog (s : State W Q) :
    ∃ extra, (freeSavedState s).log=s.log++extra ∧ ∀ e∈extra, quiet e=true := by
  rw [freeSavedState_eq]
  refine ⟨_,rfl,?_⟩
  intro e he
  cases hsaved : s.app.savedState with
  | none =>
    rw [hsaved] at he
    cases he
  | some saved =>
    rw [hsaved] at he
    rw [List.mem_singleton.mp he]
    rfl

/-- A step inside `onSaveInstanceState` that logs nothing about it keeps the
call at the end of the log. -/
theorem SaveInv.inside_of_quiet {s t : State W Q} (h : SaveInv s) (hact : s.activity=.saving)
    (hlog : ∃ extra, t.log=s.log++extra ∧ ∀ e∈extra, quiet e=true)
    (hreq : ∀ since since', handledStates since'=handledStates since → Request s since →
      Request t since') :
    ∃ before since, t.log=before++.saveCall::since ∧
      (∀ e∈since, isSaveEdge e=false) ∧ Request t since := by
  obtain ⟨before,since,hs,hedges,hr⟩ := h.inside hact
  obtain ⟨extra,ht,hq⟩ := hlog
  refine ⟨before,since++extra,by rw [ht,hs]; simp,?_,
    hreq since _ (handledStates_append_quiet hq) hr⟩
  intro e he
  rcases List.mem_append.mp he with he|he
  · exact hedges e he
  · exact isSaveEdge_of_quiet (hq e he)

theorem Request.of_release {s : State W Q} {since since' : List (Event W)} {b : AppThread}
    (hsince : handledStates since'=handledStates since) (hth : Releasing s.appThread b)
    (h : Request s since) : Request {freeSavedState s with appThread := b} since' := by
  rw [freeSavedState_eq]
  cases h with
  | piped before hpipe hbefore hhand hsaved hh =>
    exact .piped before hpipe hbefore (hth.saveInHand.trans hhand) hsaved (hsince.trans hh)
  | read hpipe hs hsaved hh =>
    rw [hs] at hth
    cases hth
    exact .ready hpipe (Or.inl rfl) rfl hsaved (hsince.trans hh)
  | ready hpipe hs hnone hsaved hh =>
    rcases hs with hs|hs
    · rw [hs] at hth
      cases hth
    · rw [hs] at hth
      cases hth
  | handled hpipe hs hsaved hh =>
    rw [hs] at hth
    cases hth
  | saved hpipe hs hsaved hh =>
    rw [hs] at hth
    cases hth

theorem Request.of_move {s t : State W Q} {since since' : List (Event W)}
    (hsince : handledStates since'=handledStates since) (hth : Moving s.appThread t.appThread)
    (hpipe' : t.app.pipe=s.app.pipe) (hsame : Same s t) (h : Request s since) :
    Request t since' := by
  cases h with
  | piped before hpipe hbefore hhand hsaved hh =>
    exact .piped before (hpipe'.trans hpipe) hbefore (hth.saveInHand.trans hhand)
      (hsame.stateSaved.trans hsaved) (hsince.trans hh)
  | read hpipe hs hsaved hh =>
    rw [hs] at hth
    cases hth
  | ready hpipe hs hnone hsaved hh =>
    have ht : t.appThread=.onAppCmd .saveState := by
      rcases hs with hs|hs
      · rw [hs] at hth
        generalize t.appThread=b at hth
        cases hth
        rfl
      · rw [hs] at hth
        generalize t.appThread=b at hth
        cases hth with
        | onAppCmd cmd hne => exact absurd rfl hne
    exact .ready (hpipe'.trans hpipe) (Or.inr ht) (hsame.savedState.trans hnone)
      (hsame.stateSaved.trans hsaved) (hsince.trans hh)
  | handled hpipe hs hsaved hh =>
    rw [hs] at hth
    generalize t.appThread=b at hth
    cases hth with
    | postExec cmd hne => exact absurd rfl hne
  | saved hpipe hs hsaved hh =>
    rw [hs] at hth
    cases hth

/-- Reading a command brings the request one place nearer. -/
theorem Request.of_read {s : State W Q} {since : List (Event W)} {cmd : Cmd} {rest : List Cmd}
    (hpipe : s.app.pipe=cmd::rest) (h : Request s since) :
    Request {s with
      app := {s.app with pipe := rest}
      appThread := if cmd=.saveState then .readSave else .preExec cmd} since := by
  cases h with
  | piped before hp hbefore hhand hsaved hh =>
    rw [hpipe] at hp
    cases before with
    | nil =>
      cases hp
      exact .read rfl rfl hsaved hh
    | cons c before =>
      cases hp
      rw [List.mem_cons,not_or] at hbefore
      refine .piped before rfl hbefore.2 ?_ hsaved hh
      rw [if_neg (Ne.symm hbefore.1)]
      cases cmd with
      | saveState => exact absurd rfl hbefore.1
      | _ => rfl
  | read hp => rw [hpipe] at hp; cases hp
  | ready hp => rw [hpipe] at hp; cases hp
  | handled hp => rw [hpipe] at hp; cases hp
  | saved hp => rw [hpipe] at hp; cases hp

/-- The handler runs with nothing stored. -/
theorem Request.savedState_onAppCmd {s : State W Q} {since : List (Event W)}
    (h : Request s since) (hth : s.appThread=.onAppCmd .saveState) :
    s.app.pipe=[] ∧ s.app.savedState=none ∧ s.app.stateSaved=false ∧
      handledStates since=[] := by
  cases h with
  | piped before hp hbefore hhand =>
    rw [hth] at hhand
    cases hhand
  | read hp hs =>
    rw [hth] at hs
    cases hs
  | ready hp hs hnone hsaved hh => exact ⟨hp,hnone,hsaved,hh⟩
  | handled hp hs =>
    rw [hth] at hs
    cases hs
  | saved hp hs =>
    rw [hth] at hs
    cases hs

theorem SaveInv.step_inside {s t : State W Q} (h : SaveInv s) (hstay : Staying s)
    (hstep : SaveStep s t) (hact : t.activity=.saving) :
    ∃ before since, t.log=before++.saveCall::since ∧
      (∀ e∈since, isSaveEdge e=false) ∧ Request t since := by
  cases hstep with
  | write cmds hidle hne => exact absurd hact hne
  | call hidle ht =>
    subst ht
    obtain ⟨hpipe,hhand⟩ := h.outside (by rw [hidle]; exact nofun)
    exact ⟨s.log,[],rfl,by simp,.piped s.app.pipe rfl hpipe hhand rfl rfl⟩
  | ret _ _ ht =>
    subst ht
    cases hact
  | wake _ hne => exact absurd hact hne
  | read cmd rest hs hpipe ht =>
    subst ht
    obtain ⟨before,since,hlog,hedges,hr⟩ := h.inside hact
    exact ⟨before,since,hlog,hedges,hr.of_read hpipe⟩
  | release hth ht =>
    rw [ht] at hact ⊢
    refine h.inside_of_quiet ?_ (freeSavedState_quietLog s) fun _ _ hsince =>
      Request.of_release hsince hth
    rw [freeSavedState_eq] at hact
    exact hact
  | handled stored hs ht =>
    have hactS : s.activity=.saving := by
      subst ht
      cases stored <;> exact hact
    obtain ⟨before,since,hlog,hedges,hr⟩ := h.inside hactS
    obtain ⟨hp,hnone,hsaved,hh⟩ := hr.savedState_onAppCmd hs
    have hnew : ∀ x, handledStates (since++[.saveHandled x])=[x] := by
      intro x
      rw [handledStates,List.filterMap_append]
      rw [handledStates] at hh
      rw [hh]
      rfl
    have hedges' : ∀ x, ∀ e∈since++[.saveHandled x], isSaveEdge e=false := by
      intro x e he
      rcases List.mem_append.mp he with he|he
      · exact hedges e he
      · rw [List.mem_singleton.mp he]
        rfl
    subst ht
    cases stored with
    | none =>
      refine ⟨before,since++[.saveHandled none],by simp [onAppCmd,hlog],hedges' _,
        .handled hp rfl hsaved ?_⟩
      rw [hnew]
      exact congrArg (fun x => [x]) hnone.symm
    | some size =>
      exact ⟨before,since++[.saveHandled (some ⟨s.nextBuffer,size⟩)],
        by simp [onAppCmd,hlog],hedges' _,.handled hp rfl hsaved (hnew _)⟩
  | saved hs ht =>
    subst ht
    obtain ⟨before,since,hlog,hedges,hr⟩ := h.inside hact
    refine ⟨before,since,hlog,hedges,?_⟩
    cases hr with
    | piped _ _ _ hhand =>
      rw [hs] at hhand
      cases hhand
    | read _ hth =>
      rw [hs] at hth
      cases hth
    | ready _ hth =>
      rw [hs] at hth
      rcases hth with hth|hth
      · cases hth
      · cases hth
    | handled hp _ _ hh => exact .saved hp rfl rfl hh
    | saved _ hth =>
      rw [hs] at hth
      cases hth
  | move hth hactEq hpipe hreq hsame =>
    exact h.inside_of_quiet (hactEq ▸ hact) hsame.quietLog fun _ _ hsince =>
      Request.of_move hsince hth hpipe hsame
  | quit hs hreq ht =>
    subst ht
    obtain ⟨-,-,hr⟩ := hstay (by rw [show s.activity=.saving from hact]; rfl)
    rw [hr] at hreq
    cases hreq

/-- When `onSaveInstanceState` may return, its request is answered. -/
theorem SaveInv.answered {s : State W Q} (h : SaveInv s) (hact : s.activity=.saving)
    (hsaved : s.app.stateSaved=true) : s.app.pipe=[] ∧ s.appThread=.looping ∧
      ∃ before since, s.log=before++.saveCall::since ∧ (∀ e∈since, isSaveEdge e=false) ∧
        handledStates since=[s.app.savedState] := by
  obtain ⟨before,since,hlog,hedges,hr⟩ := h.inside hact
  cases hr with
  | piped _ _ _ _ hno => rw [hsaved] at hno; cases hno
  | read _ _ hno => rw [hsaved] at hno; cases hno
  | ready _ _ _ hno => rw [hsaved] at hno; cases hno
  | handled _ _ hno => rw [hsaved] at hno; cases hno
  | saved hp hth _ hh => exact ⟨hp,hth,before,since,hlog,hedges,hh⟩

theorem SaveInv.step_outside {s t : State W Q} (h : SaveInv s) (hstep : SaveStep s t)
    (hact : t.activity≠.saving) :
    .saveState∉t.app.pipe ∧ saveInHand t.appThread=false := by
  cases hstep with
  | write cmds hidle _ hsave _ hpipe hth =>
    obtain ⟨hp,hhand⟩ := h.outside (by rw [hidle]; exact nofun)
    rw [hpipe,hth,List.mem_append]
    exact ⟨fun hm => hm.elim hp hsave,hhand⟩
  | call hidle ht =>
    subst ht
    exact absurd rfl hact
  | ret hsaving hsaved ht =>
    subst ht
    obtain ⟨hp,hth,-⟩ := h.answered hsaving hsaved
    refine ⟨?_,by rw [hth]; rfl⟩
    rw [hp]
    exact List.not_mem_nil
  | wake hs _ _ happ hth =>
    rw [happ,hth]
    exact h.outside hs
  | read cmd rest hs hpipe ht =>
    subst ht
    obtain ⟨hp,-⟩ := h.outside hact
    rw [hpipe,List.mem_cons,not_or] at hp
    refine ⟨hp.2,?_⟩
    cases cmd with
    | saveState => exact absurd rfl hp.1
    | _ => rfl
  | release hth ht =>
    rw [ht,freeSavedState_eq] at hact ⊢
    obtain ⟨hp,hhand⟩ := h.outside hact
    exact ⟨hp,hth.saveInHand.trans hhand⟩
  | handled stored hs ht =>
    have hactS : s.activity≠.saving := by
      subst ht
      cases stored <;> exact hact
    have hhand := (h.outside hactS).2
    rw [hs] at hhand
    cases hhand
  | saved hs ht =>
    subst ht
    exact ⟨(h.outside hact).1,rfl⟩
  | move hth hactEq hpipe =>
    obtain ⟨hp,hhand⟩ := h.outside (hactEq ▸ hact)
    rw [hpipe]
    exact ⟨hp,hth.saveInHand.trans hhand⟩
  | quit hs hreq ht =>
    subst ht
    exact ⟨(h.outside hact).1,rfl⟩

/-- The event stores this buffer. -/
def stores (b : ℕ) : Event W → Bool
  | .saveHandled (some saved) => decide (saved.buffer=b)
  | _ => false

/-- The event hands this buffer out. -/
def returns (b : ℕ) : Event W → Bool
  | .saveReturn (some saved) => decide (saved.buffer=b)
  | _ => false

/-- The event releases this buffer. -/
def frees (b : ℕ) : Event W → Bool
  | .freed buffer => decide (buffer=b)
  | _ => false

/-- How often this state holds the buffer. -/
def holds (b : ℕ) : Option Saved → ℕ
  | none => 0
  | some saved => if saved.buffer=b then 1 else 0

/-- How often the buffer was stored, at the start or by the handler. -/
def storedCount (initial : Option Saved) (log : List (Event W)) (b : ℕ) : ℕ :=
  holds b initial+log.countP (stores b)

/-- The account of the buffers: each was stored once, and everything stored is
released, handed out or still held. -/
structure Ledger (initial : Option Saved) (s : State W Q) : Prop where
  /-- Stored buffers are where they should be. -/
  balance : ∀ b, storedCount initial s.log b=
    s.log.countP (frees b)+s.log.countP (returns b)+holds b s.app.savedState
  /-- New pointers were never stored. -/
  fresh : ∀ b, s.nextBuffer≤b → storedCount initial s.log b=0
  /-- No pointer is stored twice. -/
  once : ∀ b, storedCount initial s.log b≤1

theorem Ledger.frame {initial : Option Saved} {s t : State W Q} (h : Ledger initial s)
    (hsaved : t.app.savedState=s.app.savedState) (hnext : t.nextBuffer=s.nextBuffer)
    (hlogs : t.log=s.log ∨ ∃ event, t.log=s.log++[event] ∧ isSaveEvent event=false) :
    Ledger initial t := by
  have hcount : ∀ p : Event W → Bool, (∀ e, isSaveEvent e=false → p e=false) →
      t.log.countP p=s.log.countP p := by
    intro p hp
    rcases hlogs with hlog|⟨event,hlog,he⟩
    · rw [hlog]
    · rw [hlog,List.countP_append]
      simp only [List.countP_cons,List.countP_nil,hp event he]
      simp
  have hstores := fun b => hcount (stores b) fun e he => by cases e <;> first | rfl | cases he
  have hfrees := fun b => hcount (frees b) fun e he => by cases e <;> first | rfl | cases he
  have hreturns := fun b => hcount (returns b) fun e he => by cases e <;> first | rfl | cases he
  have hstored : ∀ b, storedCount initial t.log b=storedCount initial s.log b := by
    intro b
    rw [storedCount,storedCount,hstores]
  constructor
  · intro b
    rw [hstored,hfrees,hreturns,hsaved]
    exact h.balance b
  · intro b hb
    rw [hstored]
    exact h.fresh b (hnext ▸ hb)
  · intro b
    rw [hstored]
    exact h.once b

/-- The account moves with the log and the state alone. -/
theorem Ledger.of_log {initial : Option Saved} {s t : State W Q} (h : Ledger initial s)
    {event : Event W} (hlog : t.log=s.log++[event]) (hnext : t.nextBuffer=s.nextBuffer)
    (hstores : ∀ b, stores b event=false)
    (hmoved : ∀ b, holds b s.app.savedState=
      [event].countP (frees b)+[event].countP (returns b)+holds b t.app.savedState) :
    Ledger initial t := by
  have hstored : ∀ b, storedCount initial t.log b=storedCount initial s.log b := by
    intro b
    rw [storedCount,storedCount,hlog,List.countP_append]
    simp only [List.countP_cons,List.countP_nil,hstores b]
    simp
  constructor
  · intro b
    rw [hstored,hlog,List.countP_append,List.countP_append]
    have hb := h.balance b
    have hm := hmoved b
    omega
  · intro b hb
    rw [hstored]
    exact h.fresh b (hnext ▸ hb)
  · intro b
    rw [hstored]
    exact h.once b

/-- The account after the handler stored a new buffer in the empty field. -/
theorem Ledger.of_store {initial : Option Saved} {s : State W Q} (h : Ledger initial s)
    (hnone : s.app.savedState=none) (size : ℕ) (b : AppThread) :
    Ledger initial {onAppCmd s (some size) .saveState with appThread := b} := by
  have hstored : ∀ b, storedCount initial (s.log++[.saveHandled (some ⟨s.nextBuffer,size⟩)]) b=
      storedCount initial s.log b+(if s.nextBuffer=b then 1 else 0) := by
    intro b
    rw [storedCount,storedCount,List.countP_append,←Nat.add_assoc]
    simp only [List.countP_cons,List.countP_nil,stores,decide_eq_true_eq,Nat.zero_add]
  constructor
  · intro b
    change storedCount initial (s.log++[.saveHandled (some ⟨s.nextBuffer,size⟩)]) b=
      (s.log++[Event.saveHandled (some ⟨s.nextBuffer,size⟩)]).countP (frees b)+
        (s.log++[Event.saveHandled (some ⟨s.nextBuffer,size⟩)]).countP (returns b)+
        (if s.nextBuffer=b then 1 else 0)
    have hb := h.balance b
    rw [hnone] at hb
    rw [hstored,hb,List.countP_append,List.countP_append]
    rfl
  · intro b hb
    change s.nextBuffer+1≤b at hb
    refine (hstored b).trans ?_
    rw [h.fresh b (by omega),if_neg (by omega)]
  · intro b
    refine Nat.le_trans (Nat.le_of_eq (hstored b)) ?_
    split
    · next hb => exact Nat.le_of_eq (by rw [h.fresh b (by omega)])
    · exact h.once b

theorem Ledger.step {initial : Option Saved} {s t : State W Q} (h : Ledger initial s)
    (hinv : SaveInv s) (hstep : SaveStep s t) : Ledger initial t := by
  cases hstep with
  | write _ _ _ _ _ _ _ _ hsame => exact h.frame hsame.savedState hsame.nextBuffer hsame.log
  | call _ ht =>
    subst ht
    exact h.of_log rfl rfl (fun _ => rfl) fun b => by simp [frees,returns]
  | ret _ _ ht =>
    subst ht
    refine h.of_log rfl rfl (fun _ => rfl) ?_
    intro b
    dsimp only
    cases hsaved : s.app.savedState with
    | none => rfl
    | some saved =>
      simp only [List.countP_cons,List.countP_nil,frees,returns,holds,decide_eq_true_eq]
      simp
  | wake _ _ _ _ _ hsame => exact h.frame hsame.savedState hsame.nextBuffer hsame.log
  | read cmd rest _ _ ht =>
    subst ht
    exact h.frame rfl rfl (Or.inl rfl)
  | release _ ht =>
    rw [ht,freeSavedState]
    cases hsaved : s.app.savedState with
    | none => exact h.frame rfl rfl (Or.inl rfl)
    | some saved =>
      refine h.of_log rfl rfl (fun _ => rfl) ?_
      intro b
      rw [hsaved]
      simp only [List.countP_cons,List.countP_nil,frees,returns,holds,decide_eq_true_eq]
      simp
  | handled stored hs ht =>
    subst ht
    cases stored with
    | none => exact h.of_log rfl rfl (fun _ => rfl) fun b => by simp [frees,returns,onAppCmd]
    | some size =>
      refine h.of_store ?_ size _
      have hact : s.activity=.saving := by
        by_contra hne
        have hhand := (hinv.outside hne).2
        rw [hs] at hhand
        cases hhand
      obtain ⟨before,since,-,-,hr⟩ := hinv.inside hact
      exact (hr.savedState_onAppCmd hs).2.1
  | saved _ ht =>
    subst ht
    exact h.frame rfl rfl (Or.inl rfl)
  | move _ _ _ _ hsame => exact h.frame hsame.savedState hsame.nextBuffer hsame.log
  | quit _ _ ht =>
    subst ht
    exact h.frame rfl rfl (Or.inl rfl)

/-- Behind `free_saved_state` of `android_app_destroy` nothing is held. -/
def Emptied (s : State W Q) : Prop :=
  s.appThread=.destroyingFreed ∨ s.appThread=.exited → s.app.savedState=none

theorem Emptied.step {s t : State W Q} (h : Emptied s) (hstep : SaveStep s t) : Emptied t := by
  intro hth
  cases hstep with
  | write _ _ _ _ _ _ hthEq _ hsame => exact hsame.savedState.trans (h (hthEq ▸ hth))
  | call _ ht =>
    subst ht
    exact h hth
  | ret _ _ ht =>
    subst ht
    rfl
  | wake _ _ _ happ hthEq =>
    rw [happ]
    exact h (hthEq ▸ hth)
  | read cmd rest _ _ ht =>
    subst ht
    dsimp only at hth
    split at hth <;> rcases hth with hth|hth <;> cases hth
  | release _ ht => rw [ht,freeSavedState_eq]
  | handled stored hs ht =>
    subst ht
    rcases hth with hth|hth <;> cases hth
  | saved _ ht =>
    subst ht
    rcases hth with hth|hth <;> cases hth
  | move hmove _ _ _ hsame =>
    refine hsame.savedState.trans (h ?_)
    rcases hth with hth|hth
    · rw [hth] at hmove
      generalize s.appThread=a at hmove
      cases hmove
    · rw [hth] at hmove
      generalize s.appThread=a at hmove
      cases hmove
      exact Or.inl rfl
  | quit _ _ ht =>
    subst ht
    rcases hth with hth|hth <;> cases hth

/-- The state that `android_app_create` was given. -/
def givenState (saved : Option ℕ) : Option Saved := saved.map fun size => ⟨0,size⟩

theorem ledger_startState (saved : Option ℕ) :
    Ledger (givenState saved) (startState saved : State W Q) := by
  constructor
  · intro b
    cases saved with
    | none => rfl
    | some size => exact (Nat.zero_add _).symm
  · intro b hb
    cases saved with
    | none => rfl
    | some size =>
      change 1≤b at hb
      change (if 0=b then 1 else 0)+0=0
      rw [if_neg (by omega)]
  · intro b
    cases saved with
    | none => exact Nat.zero_le 1
    | some size =>
      change (if 0=b then 1 else 0)+0≤1
      split <;> omega

section Runs

variable [DecidableEq W] [DecidableEq Q]

/-- The states of all interleavings and all sequences of callbacks. -/
def Running (saved : Option ℕ) : State W Q → Prop :=
  Reachable next (fun _ _ => True) (startState saved)

theorem Running.staying {saved : Option ℕ} {s : State W Q} (h : Running saved s) : Staying s := by
  refine Reachable.invariant ?_ ?_ h
  · exact fun _ => ⟨List.not_mem_nil,rfl,rfl⟩
  · intro s t a _ hinv _ hnext
    exact hinv.step (saveStep_next hnext)

theorem Running.saveInv {saved : Option ℕ} {s : State W Q} (h : Running saved s) :
    SaveInv s := by
  refine Reachable.invariant ?_ ?_ h
  · exact ⟨fun _ => ⟨List.not_mem_nil,rfl⟩,nofun⟩
  · intro s t a hrun hinv _ hnext
    have hstep := saveStep_next hnext
    exact ⟨hinv.step_outside hstep,hinv.step_inside (Running.staying hrun) hstep⟩

theorem Running.ledger {saved : Option ℕ} {s : State W Q} (h : Running saved s) :
    Ledger (givenState saved) s := by
  refine Reachable.invariant (ledger_startState saved) ?_ h
  intro s t a hrun hinv _ hnext
  exact hinv.step (Running.saveInv hrun) (saveStep_next hnext)

theorem Running.emptied {saved : Option ℕ} {s : State W Q} (h : Running saved s) :
    Emptied s := by
  refine Reachable.invariant ?_ ?_ h
  · intro hth
    rcases hth with hth|hth <;> cases hth
  · intro s t a _ hinv _ hnext
    exact hinv.step (saveStep_next hnext)

/-- `onSaveInstanceState` returns what the handler of its own request stored,
and that handler ran once since the call. Every stored buffer was stored once
and is released once, handed out once or still held; the app thread leaves
none behind. -/
theorem onSaveInstanceState_exact {saved : Option ℕ} {s : State W Q} (h : Running saved s) :
    (∀ t, s.activity=.saving → next s .wake=some t →
      ∃ before since result, s.log=before++.saveCall::since ∧
        (∀ e∈since, isSaveEdge e=false) ∧ handledStates since=[result] ∧
        t.log=s.log++[.saveReturn result]) ∧
    (∀ b, 0 < storedCount (givenState saved) s.log b →
      s.log.countP (frees b)+s.log.countP (returns b)+holds b s.app.savedState=1) ∧
    (∀ b, storedCount (givenState saved) s.log b=0 →
      s.log.countP (frees b)+s.log.countP (returns b)+holds b s.app.savedState=0) ∧
    (s.appThread=.exited → s.app.savedState=none) := by
  refine ⟨?_,?_,?_,fun hth => h.emptied (Or.inr hth)⟩
  · intro t hact hwake
    rw [next,wake,hact] at hwake
    dsimp only at hwake
    split at hwake
    · next hsaved =>
      cases hwake
      obtain ⟨-,-,before,since,hlog,hedges,hh⟩ := h.saveInv.answered hact hsaved
      exact ⟨before,since,_,hlog,hedges,hh,rfl⟩
    · cases hwake
  · intro b hb
    have hbal := h.ledger.balance b
    have honce := h.ledger.once b
    omega
  · intro b hb
    have hbal := h.ledger.balance b
    omega

end Runs

/-- A state of 7 bytes is saved, then one of 9 bytes with a resume between the
two, up to the second return. -/
def saveTwice : List (NativeAppGlue.Action Unit Unit) :=
  [.callback .onSaveInstanceState,.appStep none,.appStep none,.appStep none,
    .appStep (some 7),.appStep none,.wake,.callback .onResume,.appStep none,.appStep none,.wake,
    .callback .onSaveInstanceState,.appStep none,.appStep none,.appStep none,.appStep none,
    .appStep none,.appStep (some 9),.appStep none]

/-- The second return of that run hands out the second buffer, and the first
one is with the activity since the first return. -/
theorem onSaveInstanceState_exact_saveTwice :
    ∃ s t : State Unit Unit,
      runActions next (fun _ _ => true) (startState (some 5)) saveTwice=some s ∧
      next s .wake=some t ∧ t.log=s.log++[.saveReturn (some ⟨2,9⟩)] ∧
      s.log.countP (frees 1)+s.log.countP (returns 1)+holds 1 s.app.savedState=1 := by
  have hwake : ((runActions next (fun _ _ => true) (startState (some 5)) saveTwice).bind
      (next · .wake)).isSome=true := by decide
  obtain ⟨t,ht⟩ := Option.isSome_iff_exists.mp hwake
  obtain ⟨s,hs,hst⟩ := Option.bind_eq_some_iff.mp ht
  have hact : (runActions next (fun _ _ => true) (startState (some 5)) saveTwice).map
      State.activity=some (.saving : Activity Unit) := by decide
  have hstored : (runActions next (fun _ _ => true) (startState (some 5)) saveTwice).map
      (fun s => decide (0 < storedCount (givenState (some 5)) s.log 1))=some true := by decide
  have hlog : (runActions next (fun _ _ => true) (startState (some 5)) saveTwice).map
      (fun s => handledStates s.log)=some [some ⟨1,7⟩,some ⟨2,9⟩] := by decide
  rw [hs,Option.map_some,Option.some.injEq] at hact hstored hlog
  have hreach : Reachable next (fun _ _ => true=true) (startState (some 5)) s :=
    reachable_of_runActions .start hs
  have hrun : Running (some 5) s := by
    simpa [Running] using hreach
  obtain ⟨hret,hone,-⟩ := onSaveInstanceState_exact hrun
  obtain ⟨before,since,result,hsplit,-,hh,hres⟩ := hret t hact hst
  have hresult : result=some ⟨2,9⟩ := by
    rw [hsplit,handledStates,List.filterMap_append] at hlog
    have hlast := congrArg List.getLast? hlog
    rw [handledStates] at hh
    simpa [hh] using hlast
  exact ⟨s,t,hs,hst,hresult ▸ hres,hone 1 (of_decide_eq_true hstored)⟩

end AndroidPlatform.NativeAppGlueSavedState
