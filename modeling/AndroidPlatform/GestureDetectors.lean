import Mathlib.Data.List.Induction
import Mathlib.Data.List.Nodup
import Mathlib.Data.List.Perm.Basic
import Mathlib.Data.Int.Notation
import Mathlib.Data.Nat.Notation
import Mathlib.Order.Nat

/-!
# The pinch and drag detectors of the native helper library

Both detectors of `gestureDetector.cpp` keep a list of the pointers that went down and
have not been lifted. The events come from a touch screen: a gesture starts with one
finger, further fingers come and go, and it ends with the last finger or is cancelled.
Positions on the screen are of an arbitrary type.
-/

namespace AndroidPlatform.GestureDetectors

/-- `AMOTION_EVENT_ACTION_DOWN`. -/
def actionDown : ℕ := 0

/-- `AMOTION_EVENT_ACTION_UP`. -/
def actionUp : ℕ := 1

/-- `AMOTION_EVENT_ACTION_MOVE`. -/
def actionMove : ℕ := 2

/-- `AMOTION_EVENT_ACTION_CANCEL`. -/
def actionCancel : ℕ := 3

/-- `AMOTION_EVENT_ACTION_POINTER_DOWN`. -/
def actionPointerDown : ℕ := 5

/-- `AMOTION_EVENT_ACTION_POINTER_UP`. -/
def actionPointerUp : ℕ := 6

/-- `GESTURE_STATE_NONE`. -/
def gestureStateNone : ℕ := 0

/-- `GESTURE_STATE_START`. -/
def gestureStateStart : ℕ := 1

/-- `GESTURE_STATE_MOVE`. -/
def gestureStateMove : ℕ := 2

/-- `GESTURE_STATE_END`. -/
def gestureStateEnd : ℕ := 4

/-- A motion event: the action word, and the id and position of each pointer. -/
structure MotionEvent (α : Type*) where
  action : ℕ
  pointers : List (ℤ×α)

variable {α : Type*}

namespace MotionEvent

/-- The action without the pointer index. -/
def flags (event : MotionEvent α) : ℕ := event.action &&& 0xff

/-- The index of the pointer that went down or up. -/
def index (event : MotionEvent α) : ℕ := (event.action &&& 0xff00) >>> 8

/-- The ids of the pointers. -/
def ids (event : MotionEvent α) : List ℤ := event.pointers.map Prod.fst

/-- `AMotionEvent_getPointerCount`. -/
def count (event : MotionEvent α) : ℕ := event.pointers.length

/-- `AMotionEvent_getPointerId`. -/
def pointerId (event : MotionEvent α) (index : ℕ) : ℤ := event.ids.getD index 0

/-- `FindIndex`, without a result for -1. -/
def findIndex (event : MotionEvent α) (id : ℤ) : Option ℕ :=
  event.ids.findIdx? fun other => id=other

/-- The position of the pointer with an id. -/
def find (event : MotionEvent α) (id : ℤ) : Option α :=
  (event.findIndex id).bind fun index => event.pointers[index]?.map Prod.snd

end MotionEvent

/-- A detector: `event_` and `vec_pointers_`. -/
structure Detector (α : Type*) where
  event : Option (MotionEvent α)
  vecPointers : List ℤ

/-- A detector that has been made. -/
def Detector.new : Detector α := ⟨none,[]⟩

/-- `PinchDetector::Detect`, with its result. -/
def PinchDetector.detect (d : Detector α) (event : MotionEvent α) : Detector α×ℕ :=
  if event.flags=actionDown then
    (⟨some event,d.vecPointers++[event.pointerId 0]⟩,gestureStateNone)
  else if event.flags=actionPointerDown then
    (⟨some event,d.vecPointers++[event.pointerId event.index]⟩,
      if event.count=2 then gestureStateStart else gestureStateNone)
  else if event.flags=actionUp then
    (⟨some event,d.vecPointers.dropLast⟩,gestureStateNone)
  else if event.flags=actionPointerUp then
    (⟨some event,d.vecPointers.erase (event.pointerId event.index)⟩,
      if d.vecPointers.idxOf (event.pointerId event.index)≤1 then
        if event.count≠2 then gestureStateStart ||| gestureStateEnd else gestureStateNone
      else gestureStateNone)
  else if event.flags=actionMove then
    (⟨some event,d.vecPointers⟩,if event.count=1 then gestureStateNone else gestureStateMove)
  else (⟨some event,d.vecPointers⟩,gestureStateNone)

/-- `PinchDetector::GetPointers`. -/
def PinchDetector.getPointers (d : Detector α) : Option (α×α) :=
  match d.event,d.vecPointers with
  | some event,first::second::_ =>
    (event.find first).bind fun v1 => (event.find second).map fun v2 => (v1,v2)
  | _,_ => none

/-- `DragDetector::Detect`, with its result. -/
def DragDetector.detect (d : Detector α) (event : MotionEvent α) : Detector α×ℕ :=
  if event.flags=actionDown then
    (⟨some event,d.vecPointers++[event.pointerId 0]⟩,gestureStateStart)
  else if event.flags=actionPointerDown then
    (⟨some event,d.vecPointers++[event.pointerId event.index]⟩,gestureStateNone)
  else if event.flags=actionUp then
    (⟨some event,d.vecPointers.dropLast⟩,gestureStateEnd)
  else if event.flags=actionPointerUp then
    (⟨some event,d.vecPointers.erase (event.pointerId event.index)⟩,
      if d.vecPointers.idxOf (event.pointerId event.index)≤1 then
        if event.count=2 then gestureStateStart else gestureStateNone
      else gestureStateNone)
  else if event.flags=actionMove then
    (⟨some event,d.vecPointers⟩,if event.count=1 then gestureStateMove else gestureStateNone)
  else (⟨some event,d.vecPointers⟩,gestureStateNone)

/-- `DragDetector::GetPointer`. -/
def DragDetector.getPointer (d : Detector α) : Option α :=
  match d.event,d.vecPointers with
  | some event,first::_ => event.find first
  | _,_ => none

/-- A detector after a sequence of events. -/
def run (detect : Detector α → MotionEvent α → Detector α×ℕ) (events : List (MotionEvent α)) :
    Detector α :=
  events.foldl (fun d event => (detect d event).1) Detector.new

/-! ## Streams of touch events -/

/-- A touch event, with the pointers on the screen before and after it, in the order in
which they went down. The event lists the pointers in any order; a pointer that goes up
is still listed. -/
inductive Touch (event : MotionEvent α) : List ℤ → List ℤ → Prop
  | down {p : ℤ} (hflags : event.flags=actionDown) (hids : event.ids=[p]) : Touch event [] [p]
  | pointerDown {screen : List ℤ} {p : ℤ} (hflags : event.flags=actionPointerDown)
      (hscreen : screen≠[]) (hp : p∉screen) (hids : event.ids.Perm (screen++[p]))
      (hindex : event.ids[event.index]?=some p) : Touch event screen (screen++[p])
  | move {screen : List ℤ} (hflags : event.flags=actionMove) (hscreen : screen≠[])
      (hids : event.ids.Perm screen) : Touch event screen screen
  | pointerUp {screen : List ℤ} {p : ℤ} (hflags : event.flags=actionPointerUp)
      (hscreen : 2 ≤ screen.length) (hids : event.ids.Perm screen)
      (hindex : event.ids[event.index]?=some p) : Touch event screen (screen.erase p)
  | up {p : ℤ} (hflags : event.flags=actionUp) (hids : event.ids=[p]) : Touch event [p] []
  | cancel {screen : List ℤ} (hflags : event.flags=actionCancel) (hscreen : screen≠[])
      (hids : event.ids.Perm screen) : Touch event screen []

/-- A stream of well-formed gestures, the last one possibly unfinished, and the pointers
that are on the screen after it. -/
inductive Stream : List (MotionEvent α) → List ℤ → Prop
  | nil : Stream [] []
  | snoc {events : List (MotionEvent α)} {event : MotionEvent α} {screen screen' : List ℤ}
      (hstream : Stream events screen) (htouch : Touch event screen screen') :
      Stream (events++[event]) screen'

namespace Touch

variable {event : MotionEvent α} {screen screen' : List ℤ}

theorem count_eq : event.count=event.ids.length := (List.length_map _).symm

/-- The number of pointers that an event lists. -/
theorem count_perm (h : event.ids.Perm screen) : event.count=screen.length := by
  rw [count_eq]
  exact h.length_eq

theorem pointerId_eq {index : ℕ} {p : ℤ} (h : event.ids[index]?=some p) :
    event.pointerId index=p := by
  rw [MotionEvent.pointerId,List.getD_eq_getElem?_getD,h]
  rfl

theorem nodup (h : Touch event screen screen') (hnodup : screen.Nodup) : screen'.Nodup := by
  cases h with
  | down hflags hids => exact List.nodup_singleton _
  | pointerDown hflags hscreen hp hids hindex =>
    refine List.nodup_append.mpr ⟨hnodup,List.nodup_singleton _,fun a ha b hb heq => hp ?_⟩
    rw [← List.mem_singleton.mp hb,← heq]
    exact ha
  | move hflags hscreen hids => exact hnodup
  | pointerUp hflags hscreen hids hindex => exact hnodup.erase _
  | up hflags hids => exact List.nodup_nil
  | cancel hflags hscreen hids => exact List.nodup_nil

end Touch

theorem Stream.nodup {events : List (MotionEvent α)} {screen : List ℤ} (h : Stream events screen) :
    screen.Nodup := by
  induction h with
  | nil => exact List.nodup_nil
  | snoc hstream htouch ih => exact htouch.nodup ih

/-- The screen is determined by the events. -/
theorem Stream.cut {events : List (MotionEvent α)} {event : MotionEvent α} {screen' : List ℤ}
    (h : Stream (events++[event]) screen') :
    ∃ screen, Stream events screen ∧ Touch event screen screen' := by
  generalize hall : events++[event]=all at h
  cases h with
  | nil => exact absurd hall (List.append_ne_nil_of_right_ne_nil _ (List.cons_ne_nil _ _))
  | snoc hstream htouch =>
    obtain ⟨rfl,heq⟩ := List.append_inj' hall rfl
    obtain rfl := (List.cons.inj heq).1
    exact ⟨_,hstream,htouch⟩

theorem run_snoc (detect : Detector α → MotionEvent α → Detector α×ℕ)
    (events : List (MotionEvent α)) (event : MotionEvent α) :
    run detect (events++[event])=(detect (run detect events) event).1 := by
  rw [run,List.foldl_append]
  rfl

/-! ## The list of pointers -/

/-- What both detectors do to their list. -/
def nextPointers (event : MotionEvent α) (vecPointers : List ℤ) : List ℤ :=
  if event.flags=actionDown then vecPointers++[event.pointerId 0]
  else if event.flags=actionPointerDown then vecPointers++[event.pointerId event.index]
  else if event.flags=actionUp then vecPointers.dropLast
  else if event.flags=actionPointerUp then vecPointers.erase (event.pointerId event.index)
  else vecPointers

/-- A detector that keeps its list in this way. -/
def Keeps (detect : Detector α → MotionEvent α → Detector α×ℕ) : Prop :=
  ∀ d event, (detect d event).1=⟨some event,nextPointers event d.vecPointers⟩

theorem keeps_pinchDetector : Keeps (@PinchDetector.detect α) := by
  intro d event
  rw [PinchDetector.detect,nextPointers]
  split_ifs <;> rfl

theorem keeps_dragDetector : Keeps (@DragDetector.detect α) := by
  intro d event
  rw [DragDetector.detect,nextPointers]
  split_ifs <;> rfl

theorem nextPointers_of_cancel {event : MotionEvent α} (h : event.flags=actionCancel)
    (vecPointers : List ℤ) : nextPointers event vecPointers=vecPointers := by
  rw [nextPointers,h]
  rfl

/-- A touch event that is no cancellation brings the list from the pointers before it to
those after it. -/
theorem Touch.nextPointers_eq {event : MotionEvent α} {screen screen' : List ℤ}
    (h : Touch event screen screen') (hflags : event.flags≠actionCancel) :
    nextPointers event screen=screen' := by
  rw [nextPointers]
  cases h with
  | down hdown hids =>
    rw [if_pos hdown,Touch.pointerId_eq (show event.ids[0]?=some _ by rw [hids]; rfl)]
    rfl
  | pointerDown hdown hscreen hp hids hindex =>
    rw [if_neg (by rw [hdown]; decide),if_pos hdown,Touch.pointerId_eq hindex]
  | move hmove hscreen hids =>
    rw [hmove]
    rfl
  | pointerUp hup hscreen hids hindex =>
    rw [if_neg (by rw [hup]; decide),if_neg (by rw [hup]; decide),if_neg (by rw [hup]; decide),
      if_pos hup,Touch.pointerId_eq hindex]
  | up hup hids =>
    rw [if_neg (by rw [hup]; decide),if_neg (by rw [hup]; decide),if_pos hup]
    rfl
  | cancel hcancel hscreen hids => exact absurd hcancel hflags

theorem run_vecPointers_snoc {detect : Detector α → MotionEvent α → Detector α×ℕ}
    (hkeeps : Keeps detect) (events : List (MotionEvent α)) (event : MotionEvent α) :
    run detect (events++[event])=⟨some event,nextPointers event (run detect events).vecPointers⟩ := by
  rw [run_snoc,hkeeps]

/-- Without cancellations the list is the list of the pointers on the screen. -/
theorem Stream.run_eq {detect : Detector α → MotionEvent α → Detector α×ℕ}
    (hkeeps : Keeps detect) {events : List (MotionEvent α)} {screen : List ℤ}
    (h : Stream events screen) (hflags : ∀ event∈events, event.flags≠actionCancel) :
    (run detect events).vecPointers=screen := by
  induction h with
  | nil => rfl
  | snoc hstream htouch ih =>
    rw [run_vecPointers_snoc hkeeps]
    change nextPointers _ (run detect _).vecPointers=_
    rw [ih (fun event hevent => hflags event (List.mem_append_left _ hevent))]
    exact htouch.nextPointers_eq (hflags _ (List.mem_append_right _ List.mem_cons_self))

/-- After each event both detectors list the pointers on the screen, without duplicates
and in the order in which they went down. -/
def Tracks (events : List (MotionEvent α)) : Prop :=
  ∀ before, before <+: events → ∀ screen, Stream before screen → screen.Nodup ∧
    (run PinchDetector.detect before).vecPointers=screen ∧
    (run DragDetector.detect before).vecPointers=screen

/-- A stream before one of its events. -/
theorem Stream.before {events later : List (MotionEvent α)} {event : MotionEvent α}
    {screen : List ℤ} (h : Stream (events++event::later) screen) :
    ∃ screen', Stream (events++[event]) screen' := by
  induction later using List.reverseRecOn generalizing screen with
  | nil => exact ⟨screen,h⟩
  | append_singleton later last ih =>
    rw [← List.cons_append,← List.append_assoc] at h
    obtain ⟨screen',hstream,-⟩ := h.cut
    exact ih hstream

/-- In a stream of gestures the detectors list the pointers on the screen after every
event exactly if no gesture is cancelled. -/
theorem tracks_iff {events : List (MotionEvent α)} {screen : List ℤ} (h : Stream events screen) :
    Tracks events ↔ ∀ event∈events, event.flags≠actionCancel := by
  constructor
  · intro htracks event hevent hcancel
    obtain ⟨before,later,rfl⟩ := List.append_of_mem hevent
    obtain ⟨screen2,hstream2⟩ := h.before
    obtain ⟨screen1,hstream1,htouch⟩ := hstream2.cut
    obtain ⟨-,hpinch1,-⟩ := htracks before (List.prefix_append _ _) screen1 hstream1
    obtain ⟨-,hpinch2,-⟩ := htracks (before++[event])
      ⟨later,by rw [List.append_assoc]; rfl⟩ screen2 hstream2
    rw [run_vecPointers_snoc keeps_pinchDetector] at hpinch2
    change nextPointers event (run PinchDetector.detect before).vecPointers=screen2 at hpinch2
    rw [nextPointers_of_cancel hcancel,hpinch1] at hpinch2
    cases htouch with
    | down hflags hids => exact absurd (hflags.symm.trans hcancel) (by decide)
    | pointerDown hflags hscreen hp hids hindex =>
      exact absurd (hflags.symm.trans hcancel) (by decide)
    | move hflags hscreen hids => exact absurd (hflags.symm.trans hcancel) (by decide)
    | pointerUp hflags hscreen hids hindex => exact absurd (hflags.symm.trans hcancel) (by decide)
    | up hflags hids => exact absurd (hflags.symm.trans hcancel) (by decide)
    | cancel hflags hscreen hids => exact hscreen hpinch2
  · intro hflags before hbefore screen' hstream
    have hflags' : ∀ event∈before, event.flags≠actionCancel :=
      fun event hevent => hflags event (hbefore.subset hevent)
    exact ⟨hstream.nodup,hstream.run_eq keeps_pinchDetector hflags',
      hstream.run_eq keeps_dragDetector hflags'⟩

/-- One finger that touches the screen. -/
def fingerDown : MotionEvent ℕ := ⟨actionDown,[(0,0)]⟩

/-- The finger is lifted. -/
def fingerUp : MotionEvent ℕ := ⟨actionUp,[(0,0)]⟩

/-- The gesture is cancelled. -/
def fingerCancelled : MotionEvent ℕ := ⟨actionCancel,[(0,0)]⟩

/-- A tap is tracked. -/
theorem tracks_iff_tap : Stream [fingerDown,fingerUp] [] ∧ Tracks [fingerDown,fingerUp] := by
  have hstream : Stream [fingerDown,fingerUp] [] :=
    .snoc (.snoc .nil (.down (by decide) rfl)) (.up (by decide) rfl)
  exact ⟨hstream,(tracks_iff hstream).mpr (by decide)⟩

/-- After a gesture that is cancelled its finger stays in the list. -/
theorem not_tracks_cancelled : Stream [fingerDown,fingerCancelled] [] ∧
    (run PinchDetector.detect [fingerDown,fingerCancelled]).vecPointers=[0] ∧
    (run DragDetector.detect [fingerDown,fingerCancelled]).vecPointers=[0] ∧
    ¬Tracks [fingerDown,fingerCancelled] := by
  have hstream : Stream [fingerDown,fingerCancelled] [] :=
    .snoc (.snoc .nil (.down (by decide) rfl)) (.cancel (by decide) (by decide) (.refl _))
  refine ⟨hstream,by decide,by decide,fun htracks => ?_⟩
  obtain ⟨-,hpinch,-⟩ := htracks _ (List.prefix_refl _) [] hstream
  exact absurd hpinch (by decide)

/-! ## The pointers that are followed -/

/-- The drag detector follows a pointer: it is the first of the list, and `GetPointer`
gives its position. -/
def DragDetector.Follows (d : Detector α) (p : ℤ) : Prop :=
  d.vecPointers.head?=some p ∧ ∃ event v, d.event=some event ∧ event.find p=some v ∧
    DragDetector.getPointer d=some v

/-- The pinch detector follows two pointers: they are the first of the list, in this
order, and `GetPointers` gives their positions. -/
def PinchDetector.Follows (d : Detector α) (p q : ℤ) : Prop :=
  d.vecPointers.take 2=[p,q] ∧ ∃ event v w, d.event=some event ∧ event.find p=some v ∧
    event.find q=some w ∧ PinchDetector.getPointers d=some (v,w)

/-- A detector signals the start of a gesture at an event. -/
def StartsAt (detect : Detector α → MotionEvent α → Detector α×ℕ)
    (earlier : List (MotionEvent α)) (event : MotionEvent α) : Prop :=
  (detect (run detect earlier) event).2 &&& gestureStateStart≠0

/-- The latest event at which a detector has signalled a start. -/
def LatestStart (detect : Detector α → MotionEvent α → Detector α×ℕ)
    (events earlier : List (MotionEvent α)) (event : MotionEvent α) : Prop :=
  ∃ later, events=earlier++event::later ∧ StartsAt detect earlier event ∧
    ∀ before event' after, later=before++event'::after →
      ¬StartsAt detect (earlier++event::before) event'

section

variable {detect : Detector α → MotionEvent α → Detector α×ℕ} {events earlier : List (MotionEvent α)}
  {event start : MotionEvent α}

theorem LatestStart.self (h : StartsAt detect events event) :
    LatestStart detect (events++[event]) events event := by
  refine ⟨[],rfl,h,fun before event' after heq => ?_⟩
  exact absurd heq.symm (List.append_ne_nil_of_right_ne_nil _ (List.cons_ne_nil _ _))

theorem LatestStart.snoc (h : LatestStart detect events earlier start)
    (hnot : ¬StartsAt detect events event) :
    LatestStart detect (events++[event]) earlier start := by
  obtain ⟨later,rfl,hstart,hlater⟩ := h
  refine ⟨later++[event],by rw [List.append_assoc]; rfl,hstart,fun before event' after heq => ?_⟩
  induction after using List.reverseRecOn with
  | nil =>
    obtain ⟨rfl,hlast⟩ := List.append_inj' heq rfl
    obtain rfl := (List.cons.inj hlast).1
    exact hnot
  | append_singleton after last ih =>
    rw [← List.cons_append,← List.append_assoc] at heq
    exact hlater before event' after (List.append_inj' heq rfl).1

end

/-- A pointer that an event lists has a position. -/
theorem MotionEvent.exists_find {event : MotionEvent α} {p : ℤ} (h : p∈event.ids) :
    ∃ v, event.find p=some v := by
  have hsome : (event.findIndex p).isSome=true := by
    rw [MotionEvent.findIndex,List.findIdx?_isSome,List.any_eq_true]
    exact ⟨p,h,decide_eq_true rfl⟩
  obtain ⟨index,hindex⟩ := Option.isSome_iff_exists.mp hsome
  have hlt : index < event.pointers.length := by
    have hlt := (List.findIdx?_eq_some_iff_getElem.mp hindex).choose
    rw [MotionEvent.ids,List.length_map] at hlt
    exact hlt
  refine ⟨event.pointers[index].2,?_⟩
  rw [MotionEvent.find,hindex,Option.bind_some,List.getElem?_eq_getElem hlt]
  rfl

theorem DragDetector.follows_of_mem {event : MotionEvent α} {p : ℤ} {others : List ℤ}
    (h : p∈event.ids) : DragDetector.Follows ⟨some event,p::others⟩ p := by
  obtain ⟨v,hv⟩ := MotionEvent.exists_find h
  exact ⟨rfl,event,v,rfl,hv,hv⟩

theorem PinchDetector.follows_of_mem {event : MotionEvent α} {p q : ℤ} {others : List ℤ}
    (hp : p∈event.ids) (hq : q∈event.ids) :
    PinchDetector.Follows ⟨some event,p::q::others⟩ p q := by
  obtain ⟨v,hv⟩ := MotionEvent.exists_find hp
  obtain ⟨w,hw⟩ := MotionEvent.exists_find hq
  refine ⟨rfl,event,v,w,rfl,hv,hw,?_⟩
  change ((event.find p).bind fun v1 => (event.find q).map fun v2 => (v1,v2))=some (v,w)
  rw [hv,Option.bind_some,hw]
  rfl

/-- The pointers after a touch event that is no cancellation are listed by it. -/
theorem Touch.mem_ids {event : MotionEvent α} {screen screen' : List ℤ} {p : ℤ}
    (h : Touch event screen screen') (hp : p∈screen') : p∈event.ids := by
  cases h with
  | down hflags hids =>
    rw [hids]
    exact hp
  | pointerDown hflags hscreen hnew hids hindex => exact hids.mem_iff.mpr hp
  | move hflags hscreen hids => exact hids.mem_iff.mpr hp
  | pointerUp hflags hscreen hids hindex => exact hids.mem_iff.mpr (List.mem_of_mem_erase hp)
  | up hflags hids => exact absurd hp List.not_mem_nil
  | cancel hflags hscreen hids => exact absurd hp List.not_mem_nil

/-- While one finger is on the screen, the latest start was signalled with this finger. -/
theorem Stream.dragStart {events : List (MotionEvent α)} {screen : List ℤ}
    (h : Stream events screen) (hflags : ∀ event∈events, event.flags≠actionCancel) {p : ℤ}
    (hscreen : screen=[p]) : ∃ earlier start, LatestStart DragDetector.detect events earlier start ∧
      DragDetector.Follows (run DragDetector.detect (earlier++[start])) p := by
  induction h with
  | nil => cases hscreen
  | @snoc events event screen screen' hstream htouch ih =>
    have hflags' : ∀ event∈events, event.flags≠actionCancel :=
      fun event hevent => hflags event (List.mem_append_left _ hevent)
    have hpointers := hstream.run_eq keeps_dragDetector hflags'
    have hnext := htouch.nextPointers_eq (hflags _ (List.mem_append_right _ List.mem_cons_self))
    have hself : StartsAt DragDetector.detect events event →
        ∃ earlier start, LatestStart DragDetector.detect (events++[event]) earlier start ∧
          DragDetector.Follows (run DragDetector.detect (earlier++[start])) p := by
      intro hstart
      refine ⟨events,event,LatestStart.self hstart,?_⟩
      rw [run_vecPointers_snoc keeps_dragDetector,hpointers,hnext,hscreen]
      refine DragDetector.follows_of_mem (htouch.mem_ids ?_)
      rw [hscreen]
      exact List.mem_cons_self
    cases htouch with
    | down hdown hids =>
      refine hself ?_
      rw [StartsAt,DragDetector.detect,if_pos hdown]
      exact show gestureStateStart &&& gestureStateStart≠0 by decide
    | pointerDown hdown hne hp hids hindex =>
      have hlen := congrArg List.length hscreen
      rw [List.length_append] at hlen
      have hpos := List.length_pos_iff.mpr hne
      have hone : ∀ q : ℤ, [q].length=1 := fun q => rfl
      rw [hone,hone] at hlen
      omega
    | move hmove hne hids =>
      obtain ⟨earlier,start,hlatest,hfollows⟩ := ih hflags' hscreen
      refine ⟨earlier,start,hlatest.snoc ?_,hfollows⟩
      rw [StartsAt,DragDetector.detect,hmove]
      change ¬(if event.count=1 then gestureStateMove else gestureStateNone) &&& _≠0
      split_ifs
      · decide
      · decide
    | @pointerUp _ q hup htwo hids hindex =>
      refine hself ?_
      have hq : q∈screen := hids.mem_iff.mp (List.mem_of_getElem? hindex)
      have hlen : screen.length=2 := by
        have hlen := congrArg List.length hscreen
        rw [List.length_erase_of_mem hq] at hlen
        change screen.length-1=1 at hlen
        omega
      rw [StartsAt,DragDetector.detect,if_neg (by rw [hup]; decide),if_neg (by rw [hup]; decide),
        if_neg (by rw [hup]; decide),if_pos hup,hpointers,Touch.pointerId_eq hindex]
      have hidx := List.idxOf_lt_length_iff.mpr hq
      rw [if_pos (by omega),if_pos ((Touch.count_perm hids).trans hlen)]
      exact show gestureStateStart &&& gestureStateStart≠0 by decide
    | up hup hids => cases hscreen
    | cancel hcancel hne hids => cases hscreen

/-- While two or more fingers are on the screen, the latest start was signalled with the
first two of them. -/
theorem Stream.pinchStart {events : List (MotionEvent α)} {screen : List ℤ}
    (h : Stream events screen) (hflags : ∀ event∈events, event.flags≠actionCancel) {p q : ℤ}
    {others : List ℤ} (hscreen : screen=p::q::others) :
    ∃ earlier start, LatestStart PinchDetector.detect events earlier start ∧
      PinchDetector.Follows (run PinchDetector.detect (earlier++[start])) p q := by
  induction h generalizing others with
  | nil => cases hscreen
  | @snoc events event screen screen' hstream htouch ih =>
    have hflags' : ∀ event∈events, event.flags≠actionCancel :=
      fun event hevent => hflags event (List.mem_append_left _ hevent)
    have hpointers := hstream.run_eq keeps_pinchDetector hflags'
    have hnext := htouch.nextPointers_eq (hflags _ (List.mem_append_right _ List.mem_cons_self))
    have hself : StartsAt PinchDetector.detect events event →
        ∃ earlier start, LatestStart PinchDetector.detect (events++[event]) earlier start ∧
          PinchDetector.Follows (run PinchDetector.detect (earlier++[start])) p q := by
      intro hstart
      refine ⟨events,event,LatestStart.self hstart,?_⟩
      rw [run_vecPointers_snoc keeps_pinchDetector,hpointers,hnext,hscreen]
      refine PinchDetector.follows_of_mem (htouch.mem_ids ?_) (htouch.mem_ids ?_)
      · rw [hscreen]
        exact List.mem_cons_self
      · rw [hscreen]
        exact List.mem_cons_of_mem _ List.mem_cons_self
    have hkeep : ¬StartsAt PinchDetector.detect events event →
        ∀ rest, screen=p::q::rest →
        ∃ earlier start, LatestStart PinchDetector.detect (events++[event]) earlier start ∧
          PinchDetector.Follows (run PinchDetector.detect (earlier++[start])) p q := by
      intro hnot rest heq
      obtain ⟨earlier,start,hlatest,hfollows⟩ := ih hflags' heq
      exact ⟨earlier,start,hlatest.snoc hnot,hfollows⟩
    cases htouch with
    | down hdown hids => cases hscreen
    | @pointerDown _ r hdown hne hp hids hindex =>
      have hcount : event.count=screen.length+1 :=
        (Touch.count_perm hids).trans (by rw [List.length_append]; rfl)
      have hresult : (PinchDetector.detect (run PinchDetector.detect events) event).2=
          if event.count=2 then gestureStateStart else gestureStateNone := by
        rw [PinchDetector.detect,if_neg (by rw [hdown]; decide),if_pos hdown]
      cases screen with
      | nil => exact absurd rfl hne
      | cons a rest =>
        cases rest with
        | nil =>
          refine hself ?_
          rw [StartsAt,hresult,if_pos (show event.count=2 from hcount)]
          decide
        | cons b rest =>
          refine hkeep ?_ rest ?_
          · rw [StartsAt,hresult,if_neg (by rw [hcount]; change ¬rest.length+1+1+1=2; omega)]
            decide
          · obtain ⟨rfl,hrest⟩ := List.cons.inj hscreen
            obtain ⟨rfl,-⟩ := List.cons.inj hrest
            rfl
    | move hmove hne hids =>
      refine hkeep ?_ others hscreen
      rw [StartsAt,PinchDetector.detect,hmove]
      change ¬(if event.count=1 then gestureStateNone else gestureStateMove) &&& _≠0
      split_ifs
      · decide
      · decide
    | @pointerUp _ r hup htwo hids hindex =>
      have hr : r∈screen := hids.mem_iff.mp (List.mem_of_getElem? hindex)
      have hlen : 3 ≤ screen.length := by
        have hlen := congrArg List.length hscreen
        rw [List.length_erase_of_mem hr] at hlen
        change screen.length-1=others.length+1+1 at hlen
        omega
      have hresult : (PinchDetector.detect (run PinchDetector.detect events) event).2=
          if screen.idxOf r≤1 then gestureStateStart ||| gestureStateEnd
          else gestureStateNone := by
        rw [PinchDetector.detect,if_neg (by rw [hup]; decide),if_neg (by rw [hup]; decide),
          if_neg (by rw [hup]; decide),if_pos hup,hpointers,Touch.pointerId_eq hindex]
        rw [if_pos (show event.count≠2 by rw [Touch.count_perm hids]; omega)]
      by_cases hidx : screen.idxOf r≤1
      · refine hself ?_
        rw [StartsAt,hresult,if_pos hidx]
        decide
      · have hfirst : ∃ rest, screen=p::q::rest := by
          cases screen with
          | nil => exact absurd hlen (by decide)
          | cons a rest =>
            cases rest with
            | nil => exact absurd hlen (show ¬3≤1 by decide)
            | cons b rest =>
              have ha : a≠r := fun heq => hidx (by
                rw [heq,List.idxOf_cons_self]
                exact Nat.zero_le 1)
              have hb : b≠r := fun heq => hidx (by
                rw [List.idxOf_cons_ne _ ha,heq,List.idxOf_cons_self])
              rw [List.erase_cons_tail (by simpa using ha),
                List.erase_cons_tail (by simpa using hb)] at hscreen
              obtain ⟨rfl,hrest⟩ := List.cons.inj hscreen
              obtain ⟨rfl,-⟩ := List.cons.inj hrest
              exact ⟨rest,rfl⟩
        obtain ⟨rest,heq⟩ := hfirst
        refine hkeep ?_ rest heq
        rw [StartsAt,hresult,if_neg hidx]
        decide
    | up hup hids => cases hscreen
    | cancel hcancel hne hids => cases hscreen

theorem DragDetector.of_move {d : Detector α} {event : MotionEvent α}
    (h : (DragDetector.detect d event).2=gestureStateMove) :
    event.flags=actionMove ∧ event.count=1 := by
  rw [DragDetector.detect] at h
  split_ifs at h
  all_goals first
    | exact ⟨‹event.flags=actionMove›,‹event.count=1›⟩
    | simp [gestureStateNone,gestureStateStart,gestureStateMove,gestureStateEnd] at h

theorem PinchDetector.of_move {d : Detector α} {event : MotionEvent α}
    (h : (PinchDetector.detect d event).2=gestureStateMove) :
    event.flags=actionMove ∧ event.count≠1 := by
  rw [PinchDetector.detect] at h
  split_ifs at h
  all_goals first
    | exact ⟨‹event.flags=actionMove›,‹¬event.count=1›⟩
    | simp [gestureStateNone,gestureStateStart,gestureStateMove,gestureStateEnd] at h

/-- In a stream of gestures that each end with the last finger: when the drag detector
reports a move, it follows the same pointer as at the latest start; when the pinch
detector does, it follows the same two pointers in the same order. -/
theorem move_follows_start {events : List (MotionEvent α)} {event : MotionEvent α}
    {screen : List ℤ} (h : Stream (events++[event]) screen)
    (hflags : ∀ e∈events++[event], e.flags≠actionCancel) :
    ((DragDetector.detect (run DragDetector.detect events) event).2=gestureStateMove →
      ∃ earlier start p, LatestStart DragDetector.detect events earlier start ∧
        DragDetector.Follows (run DragDetector.detect (earlier++[start])) p ∧
        DragDetector.Follows (run DragDetector.detect (events++[event])) p) ∧
    ((PinchDetector.detect (run PinchDetector.detect events) event).2=gestureStateMove →
      ∃ earlier start p q, LatestStart PinchDetector.detect events earlier start ∧
        PinchDetector.Follows (run PinchDetector.detect (earlier++[start])) p q ∧
        PinchDetector.Follows (run PinchDetector.detect (events++[event])) p q) := by
  obtain ⟨before,hstream,htouch⟩ := h.cut
  have hflags' : ∀ e∈events, e.flags≠actionCancel :=
    fun e he => hflags e (List.mem_append_left _ he)
  have hnext := htouch.nextPointers_eq (hflags _ (List.mem_append_right _ List.mem_cons_self))
  constructor
  · intro hmove
    have hresult := DragDetector.of_move hmove
    have hpointers := hstream.run_eq keeps_dragDetector hflags'
    cases htouch with
    | move hact hne hids =>
      obtain ⟨p,hp⟩ := List.length_eq_one_iff.mp ((Touch.count_perm hids).symm.trans hresult.2)
      obtain ⟨earlier,start,hlatest,hfollows⟩ := hstream.dragStart hflags' hp
      refine ⟨earlier,start,p,hlatest,hfollows,?_⟩
      rw [run_vecPointers_snoc keeps_dragDetector,hpointers,hnext,hp]
      refine DragDetector.follows_of_mem (hids.mem_iff.mpr ?_)
      rw [hp]
      exact List.mem_cons_self
    | down hact hids => exact absurd (hact.symm.trans hresult.1) (by decide)
    | pointerDown hact hne hp hids hindex => exact absurd (hact.symm.trans hresult.1) (by decide)
    | pointerUp hact htwo hids hindex => exact absurd (hact.symm.trans hresult.1) (by decide)
    | up hact hids => exact absurd (hact.symm.trans hresult.1) (by decide)
    | cancel hact hne hids => exact absurd (hact.symm.trans hresult.1) (by decide)
  · intro hmove
    have hresult := PinchDetector.of_move hmove
    have hpointers := hstream.run_eq keeps_pinchDetector hflags'
    cases htouch with
    | move hact hne hids =>
      have hcount := Touch.count_perm hids
      obtain ⟨p,q,others,hpq⟩ : ∃ p q others, screen=p::q::others := by
        cases screen with
        | nil => exact absurd rfl hne
        | cons p rest =>
          cases rest with
          | nil => exact absurd hcount hresult.2
          | cons q others => exact ⟨p,q,others,rfl⟩
      obtain ⟨earlier,start,hlatest,hfollows⟩ := hstream.pinchStart hflags' hpq
      refine ⟨earlier,start,p,q,hlatest,hfollows,?_⟩
      rw [run_vecPointers_snoc keeps_pinchDetector,hpointers,hnext,hpq]
      refine PinchDetector.follows_of_mem (hids.mem_iff.mpr ?_) (hids.mem_iff.mpr ?_)
      · rw [hpq]
        exact List.mem_cons_self
      · rw [hpq]
        exact List.mem_cons_of_mem _ List.mem_cons_self
    | down hact hids => exact absurd (hact.symm.trans hresult.1) (by decide)
    | pointerDown hact hne hp hids hindex => exact absurd (hact.symm.trans hresult.1) (by decide)
    | pointerUp hact htwo hids hindex => exact absurd (hact.symm.trans hresult.1) (by decide)
    | up hact hids => exact absurd (hact.symm.trans hresult.1) (by decide)
    | cancel hact hne hids => exact absurd (hact.symm.trans hresult.1) (by decide)

/-- One finger that moves. -/
def fingerMove : MotionEvent ℕ := ⟨actionMove,[(0,1)]⟩

/-- A drag with one finger. -/
theorem move_follows_start_drag :
    (DragDetector.detect (run DragDetector.detect [fingerDown]) fingerMove).2=gestureStateMove ∧
    ∃ earlier start p, LatestStart DragDetector.detect [fingerDown] earlier start ∧
      DragDetector.Follows (run DragDetector.detect (earlier++[start])) p ∧
      DragDetector.Follows (run DragDetector.detect [fingerDown,fingerMove]) p := by
  have hstream : Stream ([fingerDown]++[fingerMove]) [0] :=
    .snoc (.snoc .nil (.down (by decide) rfl)) (.move (by decide) (by decide) (.refl _))
  exact ⟨by decide,(move_follows_start hstream (by decide)).1 (by decide)⟩

end AndroidPlatform.GestureDetectors
