import DiagLayout.Event

/-!
# The printer

The printer turns events into instructions against a width. It keeps a stack of frames, one for each
group that is open, the innermost first. A group that fits into the space left on the line, or that
consists of its closer alone, stays whole; any other is broken: its items start new lines, one unit
further in than the group.

* `Printer.step`: the printer after one event;
* `Printer.feed`: the same for a printer that is changed in place, where a fault leaves behind what
  was done before it;
* `layOut`: the instructions for a stretch of source.
-/

namespace DiagLayout

/-- How the items of an open group are laid out, and the indent of their lines. -/
structure Frame where
  broken : Bool
  indent : Int
  deriving DecidableEq, Repr, Inhabited

/-- The state of a layout in progress. -/
structure Printer where
  /-- The width to stay within. -/
  width : Int
  /-- The columns that a broken group adds to the indent. -/
  unit : Int
  /-- The open groups, the innermost first, and below them the line the layout started on. -/
  frames : List Frame
  /-- The columns left on the current line. -/
  space : Int
  /-- Where a break would go: after the last text. -/
  breakOffset : Int
  /-- The instructions so far, in order. -/
  instructions : List Instruction
  deriving DecidableEq, Repr, Inhabited

namespace Printer

/-- The printer at column `indent` before the offset `breakOffset`. -/
def start (width unit indent breakOffset : Int) : Printer :=
  ⟨width, unit, [⟨false, indent⟩], width - indent, breakOffset, []⟩

/-- The printer after a line break. -/
def breakLine (p : Printer) (indent : Int) : Printer :=
  { p with
    instructions := p.instructions ++ [⟨p.breakOffset, indent⟩]
    space := p.width - indent }

/-- The printer inside a group of the given length, above the frame `top`. -/
def enter (p : Printer) (top : Frame) (length : Int) : Printer :=
  if length ≤ p.space ∨ length = 1 then
    { p with frames := ⟨false, top.indent⟩ :: p.frames }
  else
    breakLine { p with frames := ⟨true, top.indent + p.unit⟩ :: p.frames } (top.indent + p.unit)

/-- The printer after one event. -/
def step (p : Printer) : Event → Except Fault Printer
  | .text span width => .ok { p with space := p.space - width, breakOffset := span.stop }
  | .enter length =>
    match p.frames with
    | [] => .error .noFrame
    | top :: _ => .ok (p.enter top length)
  | .gap =>
    match p.frames with
    | [] => .error .noFrame
    | top :: _ => .ok (if top.broken then p.breakLine top.indent else p)
  | .exit =>
    match p.frames with
    | _ :: below :: more => .ok { p with frames := below :: more }
    | _ => .error .strayExit
  | .other label => .error (.unknownEvent label)

/-! ### A printer that is changed in place -/

/-- The innermost frame. -/
def innermost : EStateM Fault Printer Frame := do
  match (← get).frames with
  | [] => throw .noFrame
  | frame :: _ => return frame

/-- Opens a frame. -/
def push (frame : Frame) : EStateM Fault Printer Unit :=
  modify fun p => { p with frames := frame :: p.frames }

/-- Breaks the line: first the instruction is recorded, then the space is that of a new line. -/
def record (indent : Int) : EStateM Fault Printer Unit := do
  modify fun p => { p with instructions := p.instructions ++ [⟨p.breakOffset, indent⟩] }
  modify fun p => { p with space := p.width - indent }

/-- Takes one event, one field after the other. -/
def feed : Event → EStateM Fault Printer Unit
  | .text span width => do
    modify fun p => { p with space := p.space - width }
    modify fun p => { p with breakOffset := span.stop }
  | .enter length => do
    let frame ← innermost
    let p ← get
    if length ≤ p.space ∨ length = 1 then push ⟨false, frame.indent⟩
    else
      push ⟨true, frame.indent + p.unit⟩
      record (frame.indent + p.unit)
  | .gap => do
    let frame ← innermost
    if frame.broken then record frame.indent
  | .exit => do
    if (← get).frames.length < 2 then throw .strayExit
    modify fun p => { p with frames := p.frames.tail }
  | .other label => throw (.unknownEvent label)

/-- The printer that an event leaves behind, and the fault if it was refused. -/
def offer (p : Printer) (e : Event) : Printer × Option Fault :=
  match (feed e).run p with
  | .ok _ q => (q, none)
  | .error f q => (q, some f)

/-! ### Whole traces -/

/-- The printer after the events in order. -/
def run (p : Printer) (events : List Event) : Except Fault Printer := events.foldlM step p

/-- The instructions, once every group that was entered has been left. -/
def finish (p : Printer) : Except Fault (List Instruction) :=
  if p.frames.length = 1 then .ok p.instructions
  else .error (.openGroups (p.frames.length - 1))

/-- The instructions for a trace. A fault of an event comes before the fault that ended the
trace. -/
def print (p : Printer) (tr : Trace) : Except Fault (List Instruction) := do
  let q ← p.run tr.events
  match tr.fault with
  | some f => .error f
  | none => q.finish

end Printer

/-- The instructions that lay out the positions of `e` from column `indent` on. -/
def layOut (src : Source) (e : Extent) (width unit indent : Int) (atoms : List Atom) :
    Except Fault (List Instruction) :=
  (Printer.start width unit indent e.start).print (src.trace e atoms)

end DiagLayout
