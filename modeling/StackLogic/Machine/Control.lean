import StackLogic.Machine.Marker
import StackLogic.Machine.Operands

/-!
# Control words

A line is run in a single pass from left to right. A control word never jumps: it opens, changes
or closes a marker, and the markers decide whether the following tokens are skipped. A loop body
therefore runs at most once.
-/

namespace StackLogic.Machine

/-- What a control word works on. -/
structure ControlState where
  /-- The open structures. -/
  control : Control
  /-- The operand stack, from which conditions are taken. -/
  stack : Operands
  deriving DecidableEq

namespace ControlState

/-- Take the condition of `word` and open a structure that runs or is skipped accordingly. -/
def branch (st : ControlState) (word : String) (run skip : Marker) :
    ControlState × Option Fault :=
  match st.stack with
  | [] => (st, some (.underflow word))
  | flag :: rest =>
    ({ control := (if flag.isTruthy then run else skip) :: st.control, stack := rest }, none)

/-- Open a structure without a condition. -/
def enter (st : ControlState) (m : Marker) : ControlState :=
  { st with control := m :: st.control }

/-- `ELSE` turns to the other branch, unless the whole conditional is skipped. -/
def otherBranch (st : ControlState) : ControlState × Option Fault :=
  match st.control.head? with
  | some m =>
    if m.isIf then
      if st.control.isSkippingBelowTop then (st, none)
      else ({ st with control := st.control.setTop m.flip }, none)
    else (st, some (.malformed .elseWithoutIf))
  | none => (st, some (.malformed .elseWithoutIf))

/-- `THEN` closes a conditional. -/
def closeIf (st : ControlState) : ControlState × Option Fault :=
  match st.control with
  | m :: rest =>
    if m.isIf then ({ st with control := rest }, none)
    else (st, some (.malformed .thenWithoutIf))
  | [] => (st, some (.malformed .thenWithoutIf))

/-- `UNTIL` closes a loop when its condition holds, and leaves it open otherwise. -/
def closeUntil (st : ControlState) : ControlState × Option Fault :=
  match st.control with
  | .loop :: rest =>
    if st.control.isSkipping then ({ st with control := rest }, none)
    else
      match st.stack with
      | [] => (st, some (.underflow "UNTIL"))
      | flag :: below =>
        ({ control := if flag.isTruthy then rest else st.control, stack := below }, none)
  | _ => (st, some (.malformed .untilWithoutBegin))

/-- `REPEAT` closes a loop body and then the loop around it. -/
def closeRepeat (st : ControlState) : ControlState × Option Fault :=
  match st.control with
  | m :: rest =>
    if m.isWhile then
      match rest with
      | .loop :: outer => ({ st with control := outer }, none)
      | _ => ({ st with control := rest }, some (.malformed .repeatWithoutBegin))
    else (st, some (.malformed .repeatWithoutWhile))
  | [] => (st, some (.malformed .repeatWithoutWhile))

end ControlState

/-- Run a control word. The state is meaningful together with a fault, too: what was closed before
the fault stays closed. -/
def ControlWord.run (w : ControlWord) (st : ControlState) : ControlState × Option Fault :=
  match w with
  | .ifWord =>
    if st.control.isSkipping then (st.enter .ifSkip, none) else st.branch "IF" .ifRun .ifSkip
  | .elseWord => st.otherBranch
  | .thenWord => st.closeIf
  | .beginWord => (st.enter .loop, none)
  | .untilWord => st.closeUntil
  | .whileWord =>
    if st.control.isSkipping then (st.enter .whileSkip, none)
    else if st.control.head? = some .loop then st.branch "WHILE" .whileRun .whileSkip
    else (st, some (.malformed .whileWithoutBegin))
  | .repeatWord => st.closeRepeat

end StackLogic.Machine
