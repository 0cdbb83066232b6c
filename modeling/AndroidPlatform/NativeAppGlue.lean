import AndroidPlatform.TransitionSystem
import Mathlib.Data.Nat.Notation

/-!
# The two threads of native_app_glue

The activity thread runs the callbacks of the platform; the app thread reads
single-byte commands from a pipe and runs `pre_exec`, the application's
handler and `post_exec` for each. Every critical section on the mutex is one
step. A thread in `pthread_cond_wait` may wake at any time and test its
condition again, so waking is enabled exactly when the condition holds. The
history of calls, returns, handlers and buffers is kept in a log.
-/

namespace AndroidPlatform.NativeAppGlue

/-- The commands `APP_CMD_*`, in the order of the enumeration. -/
inductive Cmd where
  | inputChanged
  | initWindow
  | termWindow
  | windowResized
  | windowRedrawNeeded
  | contentRectChanged
  | gainedFocus
  | lostFocus
  | configChanged
  | lowMemory
  | start
  | resume
  | saveState
  | pause
  | stop
  | destroy
  deriving DecidableEq

/-- A buffer from `malloc` with the size stored beside it. -/
structure Saved where
  /-- The pointer; every allocation gives a new one. -/
  buffer : ℕ
  /-- `savedStateSize`. -/
  size : ℕ
  deriving DecidableEq

/-- What has happened, as far as the protocol is judged by it. -/
inductive Event (W : Type) where
  /-- A call of `android_app_set_window` over the pending window `old`. -/
  | setWindowCall (old arg : Option W)
  /-- The return of that call. -/
  | setWindowReturn
  /-- `onAppCmd(APP_CMD_TERM_WINDOW)` is complete; it saw this window. -/
  | termHandled (window : Option W)
  /-- A call of `onSaveInstanceState`. -/
  | saveCall
  /-- `onAppCmd(APP_CMD_SAVE_STATE)` is complete; it stored this state. -/
  | saveHandled (stored : Option Saved)
  /-- The return of `onSaveInstanceState` with this pointer and length. -/
  | saveReturn (result : Option Saved)
  /-- `free_saved_state` released this buffer. -/
  | freed (buffer : ℕ)
  deriving DecidableEq

/-- The fields of `struct android_app` that the two threads share, and the
pipe between them. -/
structure AndroidApp (W Q : Type) where
  /-- `window`. -/
  window : Option W
  /-- `pendingWindow`. -/
  pendingWindow : Option W
  /-- `inputQueue`. -/
  inputQueue : Option Q
  /-- `pendingInputQueue`. -/
  pendingInputQueue : Option Q
  /-- `activityState`; zeroed memory reads as the first command. -/
  activityState : Cmd
  /-- `savedState` with `savedStateSize`. -/
  savedState : Option Saved
  /-- `stateSaved`. -/
  stateSaved : Bool
  /-- `destroyRequested`. -/
  destroyRequested : Bool
  /-- `destroyed`. -/
  destroyed : Bool
  /-- Bytes written to `msgwrite` and not yet read, oldest first. -/
  pipe : List Cmd
  deriving DecidableEq

/-- Where the activity thread is. -/
inductive Activity (W : Type) where
  /-- Between two callbacks. -/
  | idle
  /-- In the loop of `android_app_set_window`. -/
  | setWindow (arg : Option W)
  /-- In the loop of `android_app_set_input`. -/
  | setInput
  /-- In the loop of `android_app_set_activity_state`. -/
  | setActivityState (cmd : Cmd)
  /-- In the loop of `onSaveInstanceState`. -/
  | saving
  /-- In the loop of `android_app_free`. -/
  | freeing
  /-- After `android_app_free`. -/
  | finished
  deriving DecidableEq

/-- Where the app thread is. -/
inductive AppThread where
  /-- In `android_main`, between two commands. -/
  | looping
  /-- In `android_app_read_cmd`, before `free_saved_state`. -/
  | readSave
  /-- Before `android_app_pre_exec_cmd`. -/
  | preExec (cmd : Cmd)
  /-- In the application's handler. -/
  | onAppCmd (cmd : Cmd)
  /-- Before `android_app_post_exec_cmd`. -/
  | postExec (cmd : Cmd)
  /-- In `android_app_destroy`, before `free_saved_state`. -/
  | destroying
  /-- In `android_app_destroy`, after `free_saved_state`. -/
  | destroyingFreed
  /-- After `android_app_destroy`. -/
  | exited
  deriving DecidableEq

/-- A state of the whole protocol. -/
structure State (W Q : Type) where
  /-- Shared memory and pipe. -/
  app : AndroidApp W Q
  /-- The activity thread. -/
  activity : Activity W
  /-- The app thread. -/
  appThread : AppThread
  /-- The next pointer that `malloc` returns. -/
  nextBuffer : ℕ
  /-- Everything that happened, oldest first. -/
  log : List (Event W)
  deriving DecidableEq

/-- The callbacks of the platform. -/
inductive Callback (W Q : Type) where
  | onStart
  | onResume
  | onPause
  | onStop
  | onSaveInstanceState
  | onConfigurationChanged
  | onLowMemory
  | onWindowFocusChanged (focused : Bool)
  | onNativeWindowCreated (window : Option W)
  | onNativeWindowDestroyed
  | onInputQueueCreated (queue : Option Q)
  | onInputQueueDestroyed
  | onDestroy
  deriving DecidableEq

section Steps

variable {W Q : Type}

/-- `android_app_write_cmd`. -/
def androidAppWriteCmd (app : AndroidApp W Q) (cmd : Cmd) : AndroidApp W Q :=
  {app with pipe := app.pipe++[cmd]}

/-- `free_saved_state`, with the buffer that it releases. -/
def freeSavedState (s : State W Q) : State W Q :=
  match s.app.savedState with
  | none => s
  | some saved =>
    {s with
      app := {s.app with savedState := none}
      log := s.log++[.freed saved.buffer]}

/-- The first critical section of `android_app_set_window`. -/
def androidAppSetWindow (s : State W Q) (window : Option W) : State W Q :=
  let app := if s.app.pendingWindow.isSome then androidAppWriteCmd s.app .termWindow else s.app
  let app := {app with pendingWindow := window}
  let app := if window.isSome then androidAppWriteCmd app .initWindow else app
  {s with
    app := app
    activity := .setWindow window
    log := s.log++[.setWindowCall s.app.pendingWindow window]}

/-- The first critical section of `android_app_set_input`. -/
def androidAppSetInput (s : State W Q) (queue : Option Q) : State W Q :=
  {s with
    app := androidAppWriteCmd {s.app with pendingInputQueue := queue} .inputChanged
    activity := .setInput}

/-- The first critical section of `android_app_set_activity_state`. -/
def androidAppSetActivityState (s : State W Q) (cmd : Cmd) : State W Q :=
  {s with
    app := androidAppWriteCmd s.app cmd
    activity := .setActivityState cmd}

/-- A callback that only writes a command. -/
def writeOnly (s : State W Q) (cmd : Cmd) : State W Q :=
  {s with app := androidAppWriteCmd s.app cmd}

/-- The activity thread enters a callback. -/
def callback (s : State W Q) : Callback W Q → State W Q
  | .onStart => androidAppSetActivityState s .start
  | .onResume => androidAppSetActivityState s .resume
  | .onPause => androidAppSetActivityState s .pause
  | .onStop => androidAppSetActivityState s .stop
  | .onSaveInstanceState =>
    {s with
      app := androidAppWriteCmd {s.app with stateSaved := false} .saveState
      activity := .saving
      log := s.log++[.saveCall]}
  | .onConfigurationChanged => writeOnly s .configChanged
  | .onLowMemory => writeOnly s .lowMemory
  | .onWindowFocusChanged focused => writeOnly s (if focused then .gainedFocus else .lostFocus)
  | .onNativeWindowCreated window => androidAppSetWindow s window
  | .onNativeWindowDestroyed => androidAppSetWindow s none
  | .onInputQueueCreated queue => androidAppSetInput s queue
  | .onInputQueueDestroyed => androidAppSetInput s none
  | .onDestroy =>
    {s with
      app := androidAppWriteCmd s.app .destroy
      activity := .freeing}

/-- The waiting activity thread finds its condition true and returns. -/
def wake [DecidableEq W] [DecidableEq Q] (s : State W Q) : Option (State W Q) :=
  match s.activity with
  | .idle => none
  | .setWindow _ =>
    if s.app.window=s.app.pendingWindow then
      some {s with activity := .idle, log := s.log++[.setWindowReturn]}
    else none
  | .setInput =>
    if s.app.inputQueue=s.app.pendingInputQueue then some {s with activity := .idle} else none
  | .setActivityState cmd =>
    if s.app.activityState=cmd then some {s with activity := .idle} else none
  | .saving =>
    if s.app.stateSaved=true then
      some {s with
        app := {s.app with savedState := none}
        activity := .idle
        log := s.log++[.saveReturn s.app.savedState]}
    else none
  | .freeing => if s.app.destroyed=true then some {s with activity := .finished} else none
  | .finished => none

/-- `android_app_pre_exec_cmd`, as far as it changes the shared fields. -/
def androidAppPreExecCmd (app : AndroidApp W Q) : Cmd → AndroidApp W Q
  | .inputChanged => {app with inputQueue := app.pendingInputQueue}
  | .initWindow => {app with window := app.pendingWindow}
  | .resume => {app with activityState := .resume}
  | .start => {app with activityState := .start}
  | .pause => {app with activityState := .pause}
  | .stop => {app with activityState := .stop}
  | .destroy => {app with destroyRequested := true}
  | .termWindow => app
  | .windowResized => app
  | .windowRedrawNeeded => app
  | .contentRectChanged => app
  | .gainedFocus => app
  | .lostFocus => app
  | .configChanged => app
  | .lowMemory => app
  | .saveState => app

/-- The application's handler. Of the shared fields it writes only
`savedState`, and only while it handles a request to save: `stored` is the
size of the state it allocates then, if it saves any. -/
def onAppCmd (s : State W Q) (stored : Option ℕ) : Cmd → State W Q
  | .saveState =>
    match stored with
    | none => {s with log := s.log++[.saveHandled none]}
    | some size =>
      {s with
        app := {s.app with savedState := some ⟨s.nextBuffer,size⟩}
        nextBuffer := s.nextBuffer+1
        log := s.log++[.saveHandled (some ⟨s.nextBuffer,size⟩)]}
  | .termWindow => {s with log := s.log++[.termHandled s.app.window]}
  | .inputChanged => s
  | .initWindow => s
  | .windowResized => s
  | .windowRedrawNeeded => s
  | .contentRectChanged => s
  | .gainedFocus => s
  | .lostFocus => s
  | .configChanged => s
  | .lowMemory => s
  | .start => s
  | .resume => s
  | .pause => s
  | .stop => s
  | .destroy => s

/-- `android_app_post_exec_cmd`. -/
def androidAppPostExecCmd (s : State W Q) : Cmd → State W Q
  | .termWindow => {s with app := {s.app with window := none}}
  | .saveState => {s with app := {s.app with stateSaved := true}}
  | .resume => freeSavedState s
  | .inputChanged => s
  | .initWindow => s
  | .windowResized => s
  | .windowRedrawNeeded => s
  | .contentRectChanged => s
  | .gainedFocus => s
  | .lostFocus => s
  | .configChanged => s
  | .lowMemory => s
  | .start => s
  | .pause => s
  | .stop => s
  | .destroy => s

/-- The next step of the app thread. In the loop it reads one byte, and after
a request to destroy `android_main` may also return. -/
def appStep (s : State W Q) (stored : Option ℕ) : Option (State W Q) :=
  match s.appThread with
  | .looping =>
    match s.app.pipe with
    | [] => none
    | cmd::rest =>
      some {s with
        app := {s.app with pipe := rest}
        appThread := if cmd=.saveState then .readSave else .preExec cmd}
  | .readSave => some {freeSavedState s with appThread := .preExec .saveState}
  | .preExec cmd =>
    some {s with app := androidAppPreExecCmd s.app cmd, appThread := .onAppCmd cmd}
  | .onAppCmd cmd => some {onAppCmd s stored cmd with appThread := .postExec cmd}
  | .postExec cmd => some {androidAppPostExecCmd s cmd with appThread := .looping}
  | .destroying => some {freeSavedState s with appThread := .destroyingFreed}
  | .destroyingFreed =>
    some {s with app := {s.app with destroyed := true}, appThread := .exited}
  | .exited => none

/-- `android_main` returns, which it does only on request. -/
def quit (s : State W Q) : Option (State W Q) :=
  if s.appThread=.looping ∧ s.app.destroyRequested=true then
    some {s with appThread := .destroying}
  else none

/-- A choice of the scheduler, the platform or the application. -/
inductive Action (W Q : Type) where
  /-- The platform calls back. -/
  | callback (callback : Callback W Q)
  /-- The activity thread returns from its wait. -/
  | wake
  /-- The app thread takes a step. -/
  | appStep (stored : Option ℕ)
  /-- `android_main` returns. -/
  | quit
  deriving DecidableEq

/-- One step of the protocol. -/
def next [DecidableEq W] [DecidableEq Q] (s : State W Q) : Action W Q → Option (State W Q)
  | .callback c => if s.activity=.idle then some (callback s c) else none
  | .wake => wake s
  | .appStep stored => appStep s stored
  | .quit => quit s

/-- The state once `android_app_create` has returned. A state saved by an
earlier instance was copied into the first allocated buffer. -/
def startState (savedStateSize : Option ℕ) : State W Q where
  app :=
    { window := none
      pendingWindow := none
      inputQueue := none
      pendingInputQueue := none
      activityState := .inputChanged
      savedState := savedStateSize.map fun size => ⟨0,size⟩
      stateSaved := false
      destroyRequested := false
      destroyed := false
      pipe := [] }
  activity := .idle
  appThread := .looping
  nextBuffer := 1
  log := []

end Steps

end AndroidPlatform.NativeAppGlue
