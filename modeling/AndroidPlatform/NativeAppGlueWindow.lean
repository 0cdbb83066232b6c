import AndroidPlatform.NativeAppGlue

/-!
# Window hand-over in native_app_glue

The argument follows the window commands that were written and have not taken
effect yet: those in the pipe and the one the app thread is about to execute.
Outside `android_app_set_window` there are none, and inside it there are only
the commands of that call, so the value that the caller waits for cannot be an
intermediate one.
-/

namespace AndroidPlatform.NativeAppGlueWindow

open TransitionSystem NativeAppGlue

variable {W Q : Type}

/-- The two commands that change the window. -/
def isWindowCmd : Cmd → Bool
  | .initWindow => true
  | .termWindow => true
  | _ => false

/-- The window command that the app thread has read and whose effect on
`window` is still to come: at `pre_exec` for a new window, at `post_exec` for
the end of one. -/
def inHand : AppThread → List Cmd
  | .preExec .initWindow => [.initWindow]
  | .preExec .termWindow => [.termWindow]
  | .onAppCmd .termWindow => [.termWindow]
  | .postExec .termWindow => [.termWindow]
  | _ => []

/-- The window commands without effect so far, in the order of execution. -/
def unexecuted (s : State W Q) : List Cmd :=
  inHand s.appThread++s.app.pipe.filter isWindowCmd

/-- Start or end of a call of `android_app_set_window`. -/
def isCall : Event W → Bool
  | .setWindowCall _ _ => true
  | _ => false

/-- End of a call of `android_app_set_window`. -/
def isReturn : Event W → Bool
  | .setWindowReturn => true
  | _ => false

/-- Some call in this part of the log has returned before its end. -/
def replacedIn : List (Event W) → Bool
  | [] => false
  | event::rest => if isCall event then rest.any isReturn else replacedIn rest

/-- The window was set by a call and no later call has returned. -/
def Live (log : List (Event W)) (w : W) : Prop :=
  ∃ before old since, log=before++.setWindowCall old (some w)::since ∧ replacedIn since=false

theorem replacedIn_append {since : List (Event W)} {event : Event W}
    (h : isReturn event=false) : replacedIn (since++[event])=replacedIn since := by
  induction since with
  | nil =>
    cases event <;> rfl
  | cons e rest ih =>
    rw [List.cons_append,replacedIn,replacedIn,ih,List.any_append]
    simp only [List.any_cons,List.any_nil,h,Bool.or_false]

theorem replacedIn_eq_false {since : List (Event W)} (h : ∀ e∈since, isCall e=false) :
    replacedIn since=false := by
  induction since with
  | nil => rfl
  | cons e rest ih =>
    rw [replacedIn,h e (List.mem_cons_self ..)]
    exact ih fun x hx => h x (List.mem_cons_of_mem e hx)

/-- Only a return can end the life of a window. -/
theorem Live.append {log : List (Event W)} {w : W} (h : Live log w) {event : Event W}
    (he : isReturn event=false) : Live (log++[event]) w := by
  obtain ⟨before,old,since,rfl,hr⟩ := h
  refine ⟨before,old,since++[event],by simp,?_⟩
  rw [replacedIn_append he,hr]

/-- How far a call with argument `arg` over the pending window `old` has come.
The three cases are: nothing left to execute, only the new window left, and
the old window still to be ended. -/
inductive Progress (s : State W Q) (old arg : Option W) (since : List (Event W)) : Prop
  | done (hu : unexecuted s=[]) (hw : s.app.window=arg)
      (ht : ∀ w, old=some w → .termHandled (some w)∈since)
  | init (hu : unexecuted s=[.initWindow]) (hw : s.app.window=none) (ha : arg≠none)
      (ht : ∀ w, old=some w → .termHandled (some w)∈since)
  | term (hu : unexecuted s=.termWindow::(if arg=none then [] else [.initWindow]))
      (hw : s.app.window=old) (ho : old≠none) (ha : arg≠old)
      (ht : s.appThread=.postExec .termWindow → .termHandled old∈since)

/-- The log ends with the current call, which has come this far. -/
def InCall (s : State W Q) (arg : Option W) : Prop :=
  s.app.pendingWindow=arg ∧ ∃ before old since, s.log=before++.setWindowCall old arg::since ∧
    (∀ e∈since, isCall e=false) ∧ Progress s old arg since

/-- The activity thread is in `android_app_set_window`. -/
def Activity.windowArg : Activity W → Option (Option W)
  | .setWindow arg => some arg
  | _ => none

/-- The invariant of the hand-over. -/
structure WindowInv (s : State W Q) : Prop where
  /-- Outside a call everything is executed. -/
  outside : Activity.windowArg s.activity=none →
    unexecuted s=[] ∧ s.app.window=s.app.pendingWindow
  /-- Inside a call only its own commands are left. -/
  inside : ∀ arg, Activity.windowArg s.activity=some arg → InCall s arg
  /-- The current window was set and not replaced. -/
  live : ∀ w, s.app.window=some w → Live s.log w
  /-- The handler of a new window has one. -/
  handler : s.appThread=.onAppCmd .initWindow → s.app.window≠none

theorem windowInv_startState (saved : Option ℕ) :
    WindowInv (startState saved : State W Q) where
  outside _ := ⟨rfl,rfl⟩
  inside _ h := by cases h
  live _ h := by cases h
  handler h := by cases h

/-- A step that leaves the windows, their commands and the call alone keeps
the invariant; it may log anything but calls and returns. -/
theorem WindowInv.frame {s t : State W Q} (h : WindowInv s)
    (hw : t.app.window=s.app.window) (hp : t.app.pendingWindow=s.app.pendingWindow)
    (hu : unexecuted t=unexecuted s)
    (ha : Activity.windowArg t.activity=Activity.windowArg s.activity)
    (hpost : t.appThread=.postExec .termWindow → s.appThread=.postExec .termWindow)
    (hinit : t.appThread=.onAppCmd .initWindow → s.appThread=.onAppCmd .initWindow)
    (hlog : t.log=s.log ∨ ∃ event, t.log=s.log++[event] ∧ isCall event=false ∧
      isReturn event=false) : WindowInv t where
  outside hn := by
    rw [hu,hw,hp]
    exact h.outside (ha ▸ hn)
  inside arg harg := by
    obtain ⟨hpend,before,old,since,hl,hcalls,hprog⟩ := h.inside arg (ha ▸ harg)
    have hmove : ∀ since', (∀ e∈since, e∈since') → Progress t old arg since' := by
      intro since' hsub
      cases hprog with
      | done hu' hw' ht => exact .done (hu.trans hu') (hw.trans hw') fun w hwo => hsub _ (ht w hwo)
      | init hu' hw' hne ht =>
        exact .init (hu.trans hu') (hw.trans hw') hne fun w hwo => hsub _ (ht w hwo)
      | term hu' hw' ho hne ht =>
        exact .term (hu.trans hu') (hw.trans hw') ho hne fun hth => hsub _ (ht (hpost hth))
    refine ⟨hp.trans hpend,?_⟩
    rcases hlog with hlog|⟨event,hlog,hcall,-⟩
    · exact ⟨before,old,since,hlog.trans hl,hcalls,hmove since fun _ he => he⟩
    · refine ⟨before,old,since++[event],by rw [hlog,hl]; simp,?_,
        hmove _ fun e he => List.mem_append_left _ he⟩
      intro e he
      rcases List.mem_append.mp he with he|he
      · exact hcalls e he
      · rw [List.mem_singleton.mp he]
        exact hcall
  live w hlive := by
    have hold := h.live w (hw ▸ hlive)
    rcases hlog with hlog|⟨event,hlog,-,hret⟩
    · rw [hlog]
      exact hold
    · rw [hlog]
      exact hold.append hret
  handler hth := by
    rw [hw]
    exact h.handler (hinit hth)

/-- `free_saved_state` touches the saved state and the log only. -/
theorem freeSavedState_frame (s : State W Q) :
    (freeSavedState s).app.window=s.app.window ∧
    (freeSavedState s).app.pendingWindow=s.app.pendingWindow ∧
    (freeSavedState s).app.pipe=s.app.pipe ∧
    (freeSavedState s).activity=s.activity ∧
    ((freeSavedState s).log=s.log ∨ ∃ event, (freeSavedState s).log=s.log++[event] ∧
      isCall event=false ∧ isReturn event=false) := by
  unfold freeSavedState
  split
  · exact ⟨rfl,rfl,rfl,rfl,Or.inl rfl⟩
  · exact ⟨rfl,rfl,rfl,rfl,Or.inr ⟨_,rfl,rfl,rfl⟩⟩

/-- A step of the app thread that only moves on, with no window command taking
effect, keeps the invariant. -/
theorem WindowInv.moveOn {s t : State W Q} (h : WindowInv s)
    (happ : t.app.window=s.app.window ∧ t.app.pendingWindow=s.app.pendingWindow ∧
      t.app.pipe=s.app.pipe ∧ t.activity=s.activity ∧
      (t.log=s.log ∨ ∃ event, t.log=s.log++[event] ∧ isCall event=false ∧
        isReturn event=false))
    (hhand : inHand t.appThread=inHand s.appThread)
    (hpost : t.appThread=.postExec .termWindow → s.appThread=.postExec .termWindow)
    (hinit : t.appThread=.onAppCmd .initWindow → s.appThread=.onAppCmd .initWindow) :
    WindowInv t := by
  obtain ⟨hw,hp,hpipe,hact,hlog⟩ := happ
  refine h.frame hw hp ?_ (by rw [hact]) hpost hinit hlog
  rw [unexecuted,unexecuted,hhand,hpipe]

/-- A callback that is no call of `android_app_set_window` and logs nothing
writes a command that leaves the windows alone. -/
theorem WindowInv.otherCallback {s t : State W Q} (h : WindowInv s) {cmd : Cmd}
    (hidle : s.activity=.idle) (hcmd : isWindowCmd cmd=false)
    (hw : t.app.window=s.app.window) (hp : t.app.pendingWindow=s.app.pendingWindow)
    (hpipe : t.app.pipe=s.app.pipe++[cmd]) (hact : Activity.windowArg t.activity=none)
    (hth : t.appThread=s.appThread)
    (hlog : t.log=s.log ∨ ∃ event, t.log=s.log++[event] ∧ isCall event=false ∧
      isReturn event=false) : WindowInv t := by
  refine h.frame hw hp ?_ (by rw [hact,hidle]; rfl) (fun e => hth ▸ e) (fun e => hth ▸ e) hlog
  rw [unexecuted,unexecuted,hpipe,hth,List.filter_append]
  simp only [List.filter_cons,hcmd,List.filter_nil]
  simp

theorem WindowInv.writeOnly {s : State W Q} (h : WindowInv s) (hidle : s.activity=.idle)
    {cmd : Cmd} (hcmd : isWindowCmd cmd=false) : WindowInv (writeOnly s cmd) :=
  h.otherCallback hidle hcmd rfl rfl rfl (congrArg Activity.windowArg hidle) rfl (Or.inl rfl)

/-- The commands of a call of `android_app_set_window` are appended to nothing. -/
theorem unexecuted_androidAppSetWindow (s : State W Q) (window : Option W) :
    unexecuted (androidAppSetWindow s window)=unexecuted s++
      ((if s.app.pendingWindow.isSome then [.termWindow] else [])++
        (if window.isSome then [.initWindow] else [])) := by
  unfold unexecuted androidAppSetWindow androidAppWriteCmd
  cases s.app.pendingWindow with
  | none =>
    cases window with
    | none => simp
    | some w => simp [isWindowCmd]
  | some old =>
    cases window with
    | none => simp [isWindowCmd]
    | some w => simp [isWindowCmd]

theorem androidAppSetWindow_fields (s : State W Q) (window : Option W) :
    (androidAppSetWindow s window).app.window=s.app.window ∧
    (androidAppSetWindow s window).app.pendingWindow=window ∧
    (androidAppSetWindow s window).activity=.setWindow window ∧
    (androidAppSetWindow s window).appThread=s.appThread ∧
    (androidAppSetWindow s window).log=s.log++[.setWindowCall s.app.pendingWindow window] := by
  unfold androidAppSetWindow androidAppWriteCmd
  cases s.app.pendingWindow with
  | none =>
    cases window with
    | none => exact ⟨rfl,rfl,rfl,rfl,rfl⟩
    | some w => exact ⟨rfl,rfl,rfl,rfl,rfl⟩
  | some old =>
    cases window with
    | none => exact ⟨rfl,rfl,rfl,rfl,rfl⟩
    | some w => exact ⟨rfl,rfl,rfl,rfl,rfl⟩

/-- A call starts from a state where everything is executed. -/
theorem WindowInv.setWindow {s : State W Q} (h : WindowInv s)
    (hidle : s.activity=.idle) {window : Option W}
    (hne : ∀ w, window=some w → s.app.pendingWindow≠some w) :
    WindowInv (androidAppSetWindow s window) := by
  obtain ⟨hunex,hwindow⟩ := h.outside (by rw [hidle]; rfl)
  obtain ⟨hw,hp,hact,hth,hlog⟩ := androidAppSetWindow_fields s window
  have hu := unexecuted_androidAppSetWindow s window
  rw [hunex,List.nil_append] at hu
  have hprog :
      Progress (androidAppSetWindow s window) s.app.pendingWindow window [] := by
    rcases hold : s.app.pendingWindow with _|old
    · rw [hold] at hu
      rcases hnew : window with _|w
      · subst hnew
        exact .done hu (by rw [hw,hwindow,hold]) fun _ e => by cases e
      · subst hnew
        exact .init hu (by rw [hw,hwindow,hold]) (by simp) fun _ e => by cases e
    · rw [hold] at hu
      refine .term ?_ (by rw [hw,hwindow,hold]) (by simp) ?_ ?_
      · rw [hu]
        cases window <;> rfl
      · intro e
        exact hne old e hold
      · intro hpost
        rw [hth] at hpost
        rw [unexecuted,hpost] at hunex
        cases hunex
  constructor
  · intro hn
    rw [hact] at hn
    cases hn
  · intro arg harg
    rw [hact] at harg
    cases harg
    exact ⟨hp,s.log,_,[],hlog,by simp,hprog⟩
  · intro w hlive
    rw [hlog]
    exact (h.live w (hw ▸ hlive)).append rfl
  · intro hi
    rw [hw]
    exact h.handler (hth ▸ hi)

/-- What the sequences of calls are restricted to: a window that is handed
over differs from the pending one. -/
def newWindow [DecidableEq W] (s : State W Q) : Action W Q → Bool
  | .callback (.onNativeWindowCreated (some w)) => decide (s.app.pendingWindow≠some w)
  | _ => true

theorem WindowInv.callback [DecidableEq W] {s : State W Q} (h : WindowInv s)
    (hidle : s.activity=.idle) (c : Callback W Q) (hnew : newWindow s (.callback c)=true) :
    WindowInv (callback s c) := by
  cases c with
  | onNativeWindowCreated window =>
    refine h.setWindow hidle ?_
    intro w hw
    subst hw
    exact of_decide_eq_true hnew
  | onNativeWindowDestroyed => exact h.setWindow hidle fun _ e => by cases e
  | onWindowFocusChanged focused =>
    cases focused with
    | false => exact h.writeOnly hidle rfl
    | true => exact h.writeOnly hidle rfl
  | onConfigurationChanged => exact h.writeOnly hidle rfl
  | onLowMemory => exact h.writeOnly hidle rfl
  | onSaveInstanceState =>
    exact h.otherCallback hidle rfl rfl rfl rfl rfl rfl (Or.inr ⟨_,rfl,rfl,rfl⟩)
  | _ => exact h.otherCallback hidle rfl rfl rfl rfl rfl rfl (Or.inl rfl)

/-- The condition of the wait holds only once the call is done. -/
theorem InCall.done_of_window {s : State W Q} {arg : Option W} (h : InCall s arg)
    (hw : s.app.window=s.app.pendingWindow) :
    unexecuted s=[] ∧ s.app.window=arg ∧
      ∃ before old since, s.log=before++.setWindowCall old arg::since ∧
        (∀ e∈since, isCall e=false) ∧ ∀ w, old=some w → .termHandled (some w)∈since := by
  obtain ⟨hpend,before,old,since,hlog,hcalls,hprog⟩ := h
  cases hprog with
  | done hu hwin ht => exact ⟨hu,hwin,before,old,since,hlog,hcalls,ht⟩
  | init hu hwin ha ht => exact absurd (by rw [←hpend,←hw,hwin]) ha
  | term hu hwin ho ha ht => exact absurd (by rw [←hpend,←hw,hwin]) ha

theorem WindowInv.wake [DecidableEq W] [DecidableEq Q] {s t : State W Q} (h : WindowInv s)
    (hwake : wake s=some t) : WindowInv t := by
  unfold NativeAppGlue.wake at hwake
  split at hwake
  · cases hwake
  · next arg hact =>
    split at hwake
    · next hw =>
      cases hwake
      obtain ⟨hu,hwin,before,old,since,hlog,hcalls,ht⟩ :=
        (h.inside arg (by rw [hact]; rfl)).done_of_window hw
      constructor
      · intro _
        exact ⟨hu,hw⟩
      · intro _ hn
        cases hn
      · intro w hlive
        refine ⟨before,old,since++[.setWindowReturn],?_,replacedIn_eq_false ?_⟩
        · rw [←hlive,hwin]
          simp only [hlog,List.append_assoc,List.cons_append]
        · intro e he
          rcases List.mem_append.mp he with he|he
          · exact hcalls e he
          · rw [List.mem_singleton.mp he]
            rfl
      · exact h.handler
    · cases hwake
  · next hact =>
    split at hwake
    · cases hwake
      exact h.frame rfl rfl rfl (by rw [hact]; rfl) id id (Or.inl rfl)
    · cases hwake
  · next hact =>
    split at hwake
    · cases hwake
      exact h.frame rfl rfl rfl (by rw [hact]; rfl) id id (Or.inl rfl)
    · cases hwake
  · next hact =>
    split at hwake
    · cases hwake
      exact h.frame rfl rfl rfl (by rw [hact]; rfl) id id (Or.inr ⟨_,rfl,rfl,rfl⟩)
    · cases hwake
  · next hact =>
    split at hwake
    · cases hwake
      exact h.frame rfl rfl rfl (by rw [hact]; rfl) id id (Or.inl rfl)
    · cases hwake
  · cases hwake

/-- A window command about to take effect belongs to the current call. -/
theorem WindowInv.inCall {s : State W Q} (h : WindowInv s) (hu : unexecuted s≠[]) :
    ∃ arg, Activity.windowArg s.activity=some arg ∧ InCall s arg := by
  rcases hact : Activity.windowArg s.activity with _|arg
  · exact absurd (h.outside hact).1 hu
  · exact ⟨arg,rfl,h.inside arg hact⟩

/-- `pre_exec` of a new window takes the argument of the current call. -/
theorem WindowInv.preExecInit {s : State W Q} (h : WindowInv s)
    (hth : s.appThread=.preExec .initWindow) :
    WindowInv {s with
      app := androidAppPreExecCmd s.app .initWindow
      appThread := .onAppCmd .initWindow} := by
  have hunex : unexecuted s=.initWindow::s.app.pipe.filter isWindowCmd := by
    rw [unexecuted,hth]
    rfl
  obtain ⟨arg,hact,hpend,before,old,since,hlog,hcalls,hprog⟩ := h.inCall (by rw [hunex]; simp)
  cases hprog with
  | done hu => rw [hunex] at hu; cases hu
  | term hu => rw [hunex] at hu; cases hu
  | init hu hw ha ht =>
    rw [hunex,List.cons.injEq] at hu
    constructor
    · intro hn
      rw [hact] at hn
      cases hn
    · intro arg' harg'
      rw [hact,Option.some.injEq] at harg'
      subst harg'
      exact ⟨hpend,before,old,since,hlog,hcalls,.done hu.2 hpend ht⟩
    · intro w hlive
      refine ⟨before,old,since,?_,replacedIn_eq_false hcalls⟩
      rw [←hlive]
      exact hlog.trans (by rw [←hpend]; rfl)
    · intro _ hn
      exact ha (hpend.symm.trans hn)

/-- While the end of a window is in hand, the current call has come no further. -/
theorem WindowInv.term_inHand {s : State W Q} (h : WindowInv s)
    (hhand : inHand s.appThread=[.termWindow]) :
    ∃ arg before old since, Activity.windowArg s.activity=some arg ∧
      s.app.pendingWindow=arg ∧ s.log=before++.setWindowCall old arg::since ∧
      (∀ e∈since, isCall e=false) ∧
      s.app.pipe.filter isWindowCmd=(if arg=none then [] else [.initWindow]) ∧
      s.app.window=old ∧ old≠none ∧ arg≠old ∧
      (s.appThread=.postExec .termWindow → .termHandled old∈since) := by
  have hunex : unexecuted s=.termWindow::s.app.pipe.filter isWindowCmd := by
    rw [unexecuted,hhand]
    rfl
  obtain ⟨arg,hact,hpend,before,old,since,hlog,hcalls,hprog⟩ := h.inCall (by rw [hunex]; simp)
  cases hprog with
  | done hu => rw [hunex] at hu; cases hu
  | init hu => rw [hunex] at hu; cases hu
  | term hu hw ho ha ht =>
    rw [hunex,List.cons.injEq] at hu
    exact ⟨arg,before,old,since,hact,hpend,hlog,hcalls,hu.2,hw,ho,ha,ht⟩

/-- The handler of the end of a window sees the window that is replaced. -/
theorem WindowInv.onAppCmdTerm {s : State W Q} (h : WindowInv s)
    (hth : s.appThread=.onAppCmd .termWindow) :
    WindowInv {s with
      log := s.log++[.termHandled s.app.window]
      appThread := .postExec .termWindow} := by
  obtain ⟨arg,before,old,since,hact,hpend,hlog,hcalls,hpipe,hw,ho,ha,-⟩ :=
    h.term_inHand (by rw [hth]; rfl)
  constructor
  · intro hn
    rw [hact] at hn
    cases hn
  · intro arg' harg'
    rw [hact,Option.some.injEq] at harg'
    subst harg'
    refine ⟨hpend,before,old,since++[.termHandled old],by simp [hlog,hw],?_,?_⟩
    · intro e he
      rcases List.mem_append.mp he with he|he
      · exact hcalls e he
      · rw [List.mem_singleton.mp he]
        rfl
    · refine .term ?_ hw ho ha fun _ => by simp
      rw [unexecuted,hpipe]
      rfl
  · intro w hlive
    exact (h.live w hlive).append rfl
  · intro hi
    cases hi

/-- `post_exec` of the end of a window clears it. -/
theorem WindowInv.postExecTerm {s : State W Q} (h : WindowInv s)
    (hth : s.appThread=.postExec .termWindow) :
    WindowInv {s with app := {s.app with window := none}, appThread := .looping} := by
  obtain ⟨arg,before,old,since,hact,hpend,hlog,hcalls,hpipe,hw,ho,ha,ht⟩ :=
    h.term_inHand (by rw [hth]; rfl)
  have hterm : ∀ w, old=some w → .termHandled (some w)∈since := by
    intro w hold
    rw [←hold]
    exact ht hth
  constructor
  · intro hn
    rw [hact] at hn
    cases hn
  · intro arg' harg'
    rw [hact,Option.some.injEq] at harg'
    subst harg'
    refine ⟨hpend,before,old,since,hlog,hcalls,?_⟩
    by_cases hnone : arg=none
    · rw [if_pos hnone] at hpipe
      exact .done hpipe hnone.symm hterm
    · rw [if_neg hnone] at hpipe
      exact .init hpipe rfl hnone hterm
  · intro w hlive
    cases hlive
  · intro hi
    cases hi

theorem unexecuted_read {s : State W Q} {cmd : Cmd} {rest : List Cmd}
    (hth : s.appThread=.looping) (hpipe : s.app.pipe=cmd::rest) :
    unexecuted {s with
      app := {s.app with pipe := rest}
      appThread := if cmd=.saveState then .readSave else .preExec cmd}=unexecuted s := by
  rw [unexecuted,unexecuted,hth,hpipe]
  cases cmd <;> rfl

theorem WindowInv.appStep {s t : State W Q} (h : WindowInv s) {stored : Option ℕ}
    (hstep : appStep s stored=some t) : WindowInv t := by
  unfold NativeAppGlue.appStep at hstep
  split at hstep
  · next hth =>
    split at hstep
    · cases hstep
    · next cmd rest hpipe =>
      cases hstep
      refine h.frame rfl rfl (unexecuted_read hth hpipe) rfl ?_ ?_ (Or.inl rfl)
      · intro e
        dsimp only at e
        split at e <;> cases e
      · intro e
        dsimp only at e
        split at e <;> cases e
  · next hth =>
    cases hstep
    exact h.moveOn (freeSavedState_frame s) (by rw [hth]; rfl) (fun e => by cases e)
      (fun e => by cases e)
  · next cmd hth =>
    cases hstep
    cases cmd with
    | initWindow => exact h.preExecInit hth
    | _ =>
      exact h.moveOn ⟨rfl,rfl,rfl,rfl,Or.inl rfl⟩ (by rw [hth]; rfl) (fun e => by cases e)
        (fun e => by cases e)
  · next cmd hth =>
    cases hstep
    cases cmd with
    | termWindow => exact h.onAppCmdTerm hth
    | saveState =>
      refine h.moveOn ?_ (by rw [hth]; rfl) (fun e => by cases e) (fun e => by cases e)
      cases stored with
      | none => exact ⟨rfl,rfl,rfl,rfl,Or.inr ⟨_,rfl,rfl,rfl⟩⟩
      | some size => exact ⟨rfl,rfl,rfl,rfl,Or.inr ⟨_,rfl,rfl,rfl⟩⟩
    | _ =>
      exact h.moveOn ⟨rfl,rfl,rfl,rfl,Or.inl rfl⟩ (by rw [hth]; rfl) (fun e => by cases e)
        (fun e => by cases e)
  · next cmd hth =>
    cases hstep
    cases cmd with
    | termWindow => exact h.postExecTerm hth
    | resume =>
      exact h.moveOn (freeSavedState_frame s) (by rw [hth]; rfl) (fun e => by cases e)
        (fun e => by cases e)
    | _ =>
      exact h.moveOn ⟨rfl,rfl,rfl,rfl,Or.inl rfl⟩ (by rw [hth]; rfl) (fun e => by cases e)
        (fun e => by cases e)
  · next hth =>
    cases hstep
    exact h.moveOn (freeSavedState_frame s) (by rw [hth]; rfl) (fun e => by cases e)
      (fun e => by cases e)
  · next hth =>
    cases hstep
    exact h.moveOn ⟨rfl,rfl,rfl,rfl,Or.inl rfl⟩ (by rw [hth]; rfl) (fun e => by cases e)
      (fun e => by cases e)
  · cases hstep

theorem WindowInv.quit {s t : State W Q} (h : WindowInv s) (hquit : quit s=some t) :
    WindowInv t := by
  unfold NativeAppGlue.quit at hquit
  split at hquit
  · next hq =>
    cases hquit
    exact h.moveOn ⟨rfl,rfl,rfl,rfl,Or.inl rfl⟩ (by rw [hq.1]; rfl) (fun e => by cases e)
      (fun e => by cases e)
  · cases hquit

section Runs

variable [DecidableEq W] [DecidableEq Q]

/-- The states of all interleavings in which each call hands over a new window. -/
def Running (saved : Option ℕ) : State W Q → Prop :=
  Reachable next (fun s a => newWindow s a=true) (startState saved)

theorem Running.windowInv {saved : Option ℕ} {s : State W Q} (h : Running saved s) :
    WindowInv s := by
  refine Reachable.invariant (windowInv_startState saved) ?_ h
  intro s t a _ hinv hnew hnext
  cases a with
  | callback c =>
    rw [next] at hnext
    split at hnext
    · next hidle =>
      cases hnext
      exact hinv.callback hidle c hnew
    · cases hnext
  | wake => exact hinv.wake hnext
  | appStep stored => exact hinv.appStep hnext
  | quit => exact hinv.quit hnext

/-- The hand-over is exact: a returning call leaves its argument as the window
and no window command in the pipe, and the handler of the window that it
replaced is complete; the handler of a new window has a window that was set
and not replaced. -/
theorem androidAppSetWindow_handOver {saved : Option ℕ} {s : State W Q} (h : Running saved s) :
    (∀ arg t, s.activity=.setWindow arg → next s .wake=some t →
      t.app.window=arg ∧ .initWindow∉t.app.pipe ∧ .termWindow∉t.app.pipe ∧
      ∃ before old since, s.log=before++.setWindowCall old arg::since ∧
        (∀ e∈since, isCall e=false) ∧ ∀ w, old=some w → .termHandled (some w)∈since) ∧
    (s.appThread=.onAppCmd .initWindow → ∃ w, s.app.window=some w ∧ Live s.log w) := by
  have hinv := h.windowInv
  constructor
  · intro arg t hact hwake
    rw [next,wake,hact] at hwake
    dsimp only at hwake
    split at hwake
    · next hw =>
      cases hwake
      obtain ⟨hu,hwin,hcall⟩ := (hinv.inside arg (by rw [hact]; rfl)).done_of_window hw
      have hnone := (List.append_eq_nil_iff.mp hu).2
      rw [List.filter_eq_nil_iff] at hnone
      exact ⟨hwin,fun hm => hnone _ hm rfl,fun hm => hnone _ hm rfl,hcall⟩
    · cases hwake
  · intro hth
    obtain ⟨w,hw⟩ := Option.ne_none_iff_exists'.mp (hinv.handler hth)
    exact ⟨w,hw,hinv.live w hw⟩

end Runs

/-- Window 1 is handed over and then replaced by window 2, up to the wait of
the second call. -/
def replaceWindow : List (NativeAppGlue.Action ℕ Unit) :=
  [.callback (.onNativeWindowCreated (some 1)),.appStep none,.appStep none,.wake,
    .callback (.onNativeWindowCreated (some 2)),.appStep none,.appStep none,.appStep none,
    .appStep none,.appStep none,.appStep none,.appStep none,.appStep none]

/-- The second call of that run returns with its own window, after the
handler has seen the end of window 1. -/
theorem androidAppSetWindow_handOver_replaceWindow :
    ∃ s t : State ℕ Unit, runActions next newWindow (startState none) replaceWindow=some s ∧
      next s .wake=some t ∧ t.app.window=some 2 ∧ .termHandled (some 1)∈s.log := by
  have hwake : ((runActions next newWindow (startState none) replaceWindow).bind
      (next · .wake)).isSome=true := by decide
  obtain ⟨t,ht⟩ := Option.isSome_iff_exists.mp hwake
  obtain ⟨s,hs,hst⟩ := Option.bind_eq_some_iff.mp ht
  have hact : (runActions next newWindow (startState none) replaceWindow).map State.activity=
      some (.setWindow (some 2)) := by decide
  have hlog : (runActions next newWindow (startState none) replaceWindow).map
      (fun s => decide (Event.termHandled (some 1)∈s.log))=some true := by decide
  rw [hs,Option.map_some,Option.some.injEq] at hact hlog
  have hrun : Running none s := reachable_of_runActions .start hs
  have hover := (androidAppSetWindow_handOver hrun).1 (some 2) t hact hst
  exact ⟨s,t,hs,hst,hover.1,of_decide_eq_true hlog⟩

end AndroidPlatform.NativeAppGlueWindow
