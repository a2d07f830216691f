import DiagLayout.Printer
import Mathlib.Data.List.Chain

/-!
# The frames of a printer

A printer can be fed any events: groups that are left and were never entered, groups that stay open,
events without a meaning. It refuses some of them and goes on.

* `Printer.run_feed`: to change a printer in place is to take a step, and an event that is refused
  leaves no trace;
* `Printer.Does`: what an event does that is not refused;
* `Printer.Framed`: on the line where the layout started stand the frames of the open groups, each
  indented from the one below. Every event keeps this (`Printer.Does.framed`), and so does every
  sequence of events (`Printer.framed_offered`);
* `Printer.Does.recorded`: an event records at most one instruction, at the end of the last text,
  and its indent counts the broken frames.

The main result is `any_events_keep_the_frames`.
-/

namespace DiagLayout

namespace Frame

/-- The frame stands on the frame `below`: a broken one is indented by one unit more. -/
def StandsOn (unit : Int) (frame below : Frame) : Prop :=
  frame.indent = below.indent + if frame.broken then unit else 0

/-- The number of broken frames. -/
def brokenAmong (frames : List Frame) : Nat := frames.countP (·.broken)

theorem brokenAmong_cons (frame : Frame) (frames : List Frame) :
    brokenAmong (frame :: frames) = brokenAmong frames + if frame.broken then 1 else 0 :=
  List.countP_cons

/-- **Frames that stand on each other** are indented by one unit for each broken one. -/
theorem indent_of_isChain {unit indent : Int} {below : List Frame} : ∀ {top : Frame},
    (top :: below).IsChain (StandsOn unit) → (top :: below).getLast? = some ⟨false, indent⟩ →
      top.indent = indent + brokenAmong (top :: below) * unit := by
  induction below with
  | nil =>
    intro top _ hlast
    obtain rfl : top = ⟨false, indent⟩ := by simpa using hlast
    simp [brokenAmong]
  | cons next below ih =>
    intro top hchain hlast
    obtain ⟨hstands, hchain⟩ := List.isChain_cons_cons.mp hchain
    have hnext := ih hchain (by rwa [List.getLast?_cons_cons] at hlast)
    unfold StandsOn at hstands
    rw [hstands, hnext, brokenAmong_cons top]
    split_ifs
    · rw [Int.natCast_add, Int.add_mul]
      omega
    · simp

end Frame

namespace Event

/-- A group begins. -/
def isEnter : Event → Bool
  | enter _ => true
  | _ => false

/-- The end of the last text, where `offset` was that before the event. -/
def stopAfter (offset : Int) : Event → Int
  | text span _ => span.stop
  | _ => offset

end Event

namespace Printer

/-! ### One event -/

/-- A group is entered in place as it is in one step. -/
theorem run_feed_enter {p : Printer} {top : Frame} {below : List Frame}
    (h : p.frames = top :: below) (length : Int) :
    (feed (.enter length)).run p = .ok () (p.enter top length) := by
  obtain ⟨width, unit, frames, space, breakOffset, instructions⟩ := p
  obtain rfl : frames = top :: below := h
  have hrun : (feed (.enter length)).run
      ⟨width, unit, top :: below, space, breakOffset, instructions⟩ =
        EStateM.run (if length ≤ space ∨ length = 1 then push ⟨false, top.indent⟩
          else do
            push ⟨true, top.indent + unit⟩
            record (top.indent + unit))
          ⟨width, unit, top :: below, space, breakOffset, instructions⟩ := rfl
  rw [hrun]
  unfold Printer.enter
  split_ifs
  · rfl
  · rfl

/-- **To change a printer in place is to take a step**, and an event that is refused leaves the
printer as it was. -/
theorem run_feed (p : Printer) (e : Event) : (feed e).run p =
    match p.step e with
    | .ok q => .ok () q
    | .error f => .error f p := by
  cases e with
  | text span width => rfl
  | enter length =>
    rcases hp : p.frames with _ | ⟨top, below⟩
    · simp only [step, hp]
      obtain ⟨_, _, _, _, _, _⟩ := p
      obtain rfl := hp
      rfl
    · simp only [step, hp]
      exact run_feed_enter hp length
  | gap =>
    obtain ⟨width, unit, _ | ⟨⟨_ | _, indent⟩, below⟩, space, breakOffset, instructions⟩ := p
    · rfl
    · rfl
    · rfl
  | exit =>
    obtain ⟨width, unit, _ | ⟨top, _ | ⟨next, below⟩⟩, space, breakOffset, instructions⟩ := p
    · rfl
    · rfl
    · rfl
  | other label => rfl

/-- **What an event does that is not refused.** -/
inductive Does (p : Printer) : Event → Printer → Prop
  | text (span : Span) (width : Int) :
      Does p (.text span width) { p with space := p.space - width, breakOffset := span.stop }
  | enterWhole {top : Frame} {below : List Frame} {length : Int} (h : p.frames = top :: below) :
      Does p (.enter length) { p with frames := ⟨false, top.indent⟩ :: p.frames }
  | enterBroken {top : Frame} {below : List Frame} {length : Int} (h : p.frames = top :: below) :
      Does p (.enter length) (breakLine
        { p with frames := ⟨true, top.indent + p.unit⟩ :: p.frames } (top.indent + p.unit))
  | passGap {top : Frame} {below : List Frame} (h : p.frames = top :: below) : Does p .gap p
  | breakGap {top : Frame} {below : List Frame} (h : p.frames = top :: below)
      (hb : top.broken = true) : Does p .gap (p.breakLine top.indent)
  | exit {top next : Frame} {below : List Frame} (h : p.frames = top :: next :: below) :
      Does p .exit { p with frames := next :: below }

theorem does_of_step {p q : Printer} {e : Event} (h : p.step e = .ok q) : p.Does e q := by
  cases e with
  | text span width =>
    cases h
    exact .text span width
  | enter length =>
    simp only [step] at h
    split at h
    · cases h
    · next top below hp =>
      cases h
      unfold Printer.enter
      split_ifs
      · exact .enterWhole hp
      · exact .enterBroken hp
  | gap =>
    simp only [step] at h
    split at h
    · cases h
    · next top below hp =>
      cases h
      split_ifs with hb
      · exact .breakGap hp hb
      · exact .passGap hp
  | exit =>
    simp only [step] at h
    split at h
    · next top next below hp =>
      cases h
      exact .exit hp
    · cases h
  | other label => cases h

/-- An event that is offered does what it does, or it is refused and nothing happens. -/
theorem offer_cases (p : Printer) (e : Event) :
    (∃ q, p.Does e q ∧ p.offer e = (q, none)) ∨
      (∃ f, p.offer e = (p, some f)) ∧ ∀ span width, e ≠ .text span width := by
  unfold offer
  rw [run_feed]
  cases hs : p.step e with
  | ok q => exact Or.inl ⟨q, does_of_step hs, rfl⟩
  | error f =>
    refine Or.inr ⟨⟨f, rfl⟩, ?_⟩
    rintro span width rfl
    cases hs

/-! ### What one event keeps -/

/-- **The frames of a printer**: the line where the layout started, in column `indent`, and on it
the frames of the open groups. -/
structure Framed (unit indent : Int) (p : Printer) : Prop where
  unit_eq : p.unit = unit
  bottom : p.frames.getLast? = some ⟨false, indent⟩
  stands : p.frames.IsChain (Frame.StandsOn unit)

theorem framed_start (width unit indent offset : Int) :
    Framed unit indent (start width unit indent offset) := ⟨rfl, rfl, .singleton _⟩

section OneEvent

variable {unit indent : Int} {p q : Printer} {e : Event}

/-- A frame can be put on the others. -/
theorem Framed.push (h : Framed unit indent p) {top frame : Frame} {below : List Frame}
    (hp : p.frames = top :: below) (hs : frame.StandsOn unit top) :
    (frame :: p.frames).getLast? = some ⟨false, indent⟩ ∧
      (frame :: p.frames).IsChain (Frame.StandsOn unit) := by
  have hbottom := h.bottom
  have hstands := h.stands
  rw [hp] at hbottom hstands ⊢
  exact ⟨by rwa [List.getLast?_cons_cons], .cons_cons hs hstands⟩

/-- **Every event keeps the frames.** -/
theorem Does.framed (hd : p.Does e q) (h : Framed unit indent p) : Framed unit indent q := by
  have hu := h.unit_eq
  cases hd with
  | text span width => exact ⟨hu, h.bottom, h.stands⟩
  | @enterWhole top below length hp =>
    have hs : Frame.StandsOn unit ⟨false, top.indent⟩ top := by simp [Frame.StandsOn]
    exact ⟨hu, (h.push hp hs).1, (h.push hp hs).2⟩
  | @enterBroken top below length hp =>
    have hs : Frame.StandsOn unit ⟨true, top.indent + p.unit⟩ top := by simp [Frame.StandsOn, hu]
    exact ⟨hu, (h.push hp hs).1, (h.push hp hs).2⟩
  | passGap hp => exact h
  | breakGap hp hb => exact ⟨hu, h.bottom, h.stands⟩
  | exit hp =>
    have hbottom := h.bottom
    have hstands := h.stands
    rw [hp] at hbottom hstands
    exact ⟨hu, by rwa [List.getLast?_cons_cons] at hbottom, (List.isChain_cons_cons.mp hstands).2⟩

theorem Does.breakOffset_eq (hd : p.Does e q) : q.breakOffset = e.stopAfter p.breakOffset := by
  cases hd <;> rfl

/-- The number of frames goes up when a group is entered and down when one is left. -/
theorem Does.length_frames (hd : p.Does e q) :
    q.frames.length + [e].count .exit = p.frames.length + [e].countP Event.isEnter := by
  cases hd with
  | text span width => rfl
  | enterWhole hp => rfl
  | enterBroken hp => rfl
  | passGap hp => rfl
  | breakGap hp hb => rfl
  | exit hp => rw [hp]; rfl

/-- **What an event records**: nothing, or one instruction at the end of the last text, indented by
one unit for each broken frame. -/
theorem Does.recorded (hd : p.Does e q) (h : Framed unit indent p) :
    q.instructions = p.instructions ∨
      q.instructions = p.instructions ++
        [⟨p.breakOffset, indent + Frame.brokenAmong q.frames * unit⟩] ∧
      1 ≤ Frame.brokenAmong q.frames := by
  have hq := hd.framed h
  -- the indent of the innermost frame, which the instruction takes, counts the broken ones
  have htop : ∀ {top : Frame} {below : List Frame}, q.frames = top :: below → top.broken = true →
      top.indent = indent + Frame.brokenAmong q.frames * unit ∧
        1 ≤ Frame.brokenAmong q.frames := by
    intro top below hp hb
    have hbottom := hq.bottom
    have hstands := hq.stands
    rw [hp] at hbottom hstands ⊢
    refine ⟨Frame.indent_of_isChain hstands hbottom, ?_⟩
    rw [Frame.brokenAmong_cons, if_pos hb]
    omega
  cases hd with
  | text span width => exact Or.inl rfl
  | enterWhole hp => exact Or.inl rfl
  | enterBroken hp =>
    obtain ⟨hindent, hone⟩ := htop rfl rfl
    exact Or.inr ⟨by rw [← hindent]; rfl, hone⟩
  | passGap hp => exact Or.inl rfl
  | breakGap hp hb =>
    obtain ⟨hindent, hone⟩ := htop hp hb
    exact Or.inr ⟨by rw [← hindent]; rfl, hone⟩
  | exit hp => exact Or.inl rfl

end OneEvent

/-! ### Any events -/

/-- The printer that events leave behind which are offered one after the other. -/
def offered (p : Printer) (events : List Event) : Printer :=
  events.foldl (fun p e => (p.offer e).1) p

/-- Those of the events that are not refused. -/
def accepted (p : Printer) : List Event → List Event
  | [] => []
  | e :: events =>
    match p.offer e with
    | (q, none) => e :: accepted q events
    | (q, some _) => accepted q events

theorem offered_concat (p : Printer) (events : List Event) (e : Event) :
    p.offered (events ++ [e]) = ((p.offered events).offer e).1 := by
  simp [offered]

/-- Every sequence of events keeps the frames. -/
theorem framed_offered {unit indent : Int} (events : List Event) : ∀ {p : Printer},
    Framed unit indent p → Framed unit indent (p.offered events) := by
  induction events with
  | nil => exact id
  | cons e events ih =>
    intro p h
    refine ih (p := (p.offer e).1) ?_
    rcases p.offer_cases e with ⟨q, hd, hoffer⟩ | ⟨⟨f, hoffer⟩, -⟩
    · rw [hoffer]
      exact hd.framed h
    · rw [hoffer]
      exact h

theorem breakOffset_offered (events : List Event) : ∀ p : Printer,
    (p.offered events).breakOffset = events.foldl Event.stopAfter p.breakOffset := by
  induction events with
  | nil => exact fun _ => rfl
  | cons e events ih =>
    intro p
    have hstep : (p.offer e).1.breakOffset = e.stopAfter p.breakOffset := by
      rcases p.offer_cases e with ⟨q, hd, hoffer⟩ | ⟨⟨f, hoffer⟩, htext⟩
      · rw [hoffer]
        exact hd.breakOffset_eq
      · rw [hoffer]
        cases e with
        | text span width => exact absurd rfl (htext span width)
        | enter | exit | gap | other => rfl
    calc ((p.offer e).1.offered events).breakOffset
        = events.foldl Event.stopAfter (p.offer e).1.breakOffset := ih _
      _ = (e :: events).foldl Event.stopAfter p.breakOffset := by rw [hstep, List.foldl_cons]

/-- The open frames are what the groups entered exceed the groups left by. -/
theorem length_frames_offered (events : List Event) : ∀ p : Printer,
    (p.offered events).frames.length + (p.accepted events).count .exit =
      p.frames.length + (p.accepted events).countP Event.isEnter := by
  induction events with
  | nil => exact fun _ => rfl
  | cons e events ih =>
    intro p
    unfold accepted offered
    rw [List.foldl_cons]
    rcases p.offer_cases e with ⟨q, hd, hoffer⟩ | ⟨⟨f, hoffer⟩, -⟩
    · have hone := hd.length_frames
      have hrest : (q.offered events).frames.length + _ = q.frames.length + _ := ih q
      unfold offered at hrest
      simp only [hoffer]
      rw [← List.singleton_append, List.count_append, List.countP_append]
      omega
    · rw [hoffer]
      exact ih p

/-- The instruction `i` is the one that the event `e` records behind the events `before`. -/
structure Records (p : Printer) (indent : Int) (before : List Event) (e : Event)
    (i : Instruction) : Prop where
  instructions_eq : (p.offered (before ++ [e])).instructions =
    (p.offered before).instructions ++ [i]
  offset_eq : i.offset = before.foldl Event.stopAfter p.breakOffset
  indent_eq : i.indent = indent + Frame.brokenAmong (p.offered (before ++ [e])).frames * p.unit
  one_le : 1 ≤ Frame.brokenAmong (p.offered (before ++ [e])).frames

/-- **Every instruction has the event that recorded it.** -/
theorem Framed.exists_records {unit indent : Int} {p : Printer} (h : Framed unit indent p)
    (hp : p.instructions = []) (events : List Event) :
    ∀ {k : Nat} {i : Instruction}, (p.offered events).instructions[k]? = some i →
      ∃ before e later, events = before ++ e :: later ∧
        (p.offered before).instructions.length = k ∧ p.Records indent before e i := by
  induction events using List.reverseRecOn with
  | nil =>
    intro k i hi
    simp [offered, hp] at hi
  | append_singleton events e ih =>
    intro k i hi
    have hframed := framed_offered events h
    -- an instruction that was there before the event
    have hearlier : (p.offered events).instructions[k]? = some i →
        ∃ before e' later, events ++ [e] = before ++ e' :: later ∧
          (p.offered before).instructions.length = k ∧ p.Records indent before e' i := by
      intro hi
      obtain ⟨before, e', later, rfl, hk, hr⟩ := ih hi
      exact ⟨before, e', later ++ [e], by simp, hk, hr⟩
    rcases (p.offered events).offer_cases e with ⟨q, hd, hoffer⟩ | ⟨⟨f, hoffer⟩, -⟩
    · have hq : p.offered (events ++ [e]) = q := by rw [offered_concat, hoffer]
      rw [hq] at hi
      rcases hd.recorded hframed with hsame | ⟨hnew, hone⟩
      · exact hearlier (hsame ▸ hi)
      · rcases Nat.lt_or_ge k (p.offered events).instructions.length with hlt | hge
        · rw [hnew, List.getElem?_append_left hlt] at hi
          exact hearlier hi
        · rw [hnew, List.getElem?_append_right hge, List.getElem?_singleton] at hi
          split_ifs at hi with hzero
          obtain rfl := Option.some.inj hi
          refine ⟨events, e, [], rfl, by omega, ?_, breakOffset_offered events p, ?_, ?_⟩
          · rw [hq, hnew]
          · rw [hq, h.unit_eq]
          · rw [hq]
            exact hone
    · rw [offered_concat, hoffer] at hi
      exact hearlier hi

theorem finish_eq_ok_iff (p : Printer) : (∃ is, p.finish = .ok is) ↔ p.frames.length = 1 := by
  unfold finish
  split_ifs with h
  · simp [h]
  · simp [h]

end Printer

/-- **Any events keep the frames.** A printer is fed any events, and goes on after those it refuses.
At all times the bottom frame is the line where the layout started, and every other is indented from
the one below by one unit if it is broken and not at all if it is whole. A refused event leaves the
printer as it was. Every instruction was recorded by one of the events: its offset is the end of the
last text before it, and its indent is one unit for each frame that was broken when it was recorded,
at least one. And the layout can be finished iff as many groups were left as were entered. -/
theorem any_events_keep_the_frames (width unit indent offset : Int) (events : List Event) :
    let start := Printer.start width unit indent offset
    let p := start.offered events
    p.frames.getLast? = some ⟨false, indent⟩ ∧
    p.frames.IsChain (fun frame below =>
      frame.indent = below.indent + if frame.broken then unit else 0) ∧
    (∀ e f q, (Printer.feed e).run p = .error f q → q = p) ∧
    (∀ k i, p.instructions[k]? = some i → ∃ before e later, events = before ++ e :: later ∧
      (start.offered before).instructions.length = k ∧
      (start.offered (before ++ [e])).instructions = (start.offered before).instructions ++ [i] ∧
      i.offset = before.foldl Event.stopAfter offset ∧
      i.indent = indent + Frame.brokenAmong (start.offered (before ++ [e])).frames * unit ∧
      1 ≤ Frame.brokenAmong (start.offered (before ++ [e])).frames) ∧
    ((∃ is, p.finish = .ok is) ↔
      (start.accepted events).countP Event.isEnter = (start.accepted events).count .exit) := by
  intro start p
  have hstart : start.Framed unit indent := Printer.framed_start width unit indent offset
  have hframed : p.Framed unit indent := Printer.framed_offered events hstart
  refine ⟨hframed.bottom, hframed.stands, fun e f q hrun => ?_, fun k i hi => ?_, ?_⟩
  · rw [Printer.run_feed] at hrun
    split at hrun
    · cases hrun
    · cases hrun
      rfl
  · obtain ⟨before, e, later, hevents, hk, hr⟩ := hstart.exists_records rfl events hi
    exact ⟨before, e, later, hevents, hk, hr.instructions_eq, hr.offset_eq, hr.indent_eq, hr.one_le⟩
  · have hlength : p.frames.length + _ = start.frames.length + _ :=
      start.length_frames_offered events
    have hone : start.frames.length = 1 := rfl
    rw [Printer.finish_eq_ok_iff]
    omega

/-- A group is left that was never entered, which is refused; then one is entered, broken, left, and
another one is entered and stays open. The second instruction is that of the last event. -/
theorem any_events_keep_the_frames_stray_exit :
    let events : List Event :=
      [.exit, .text ⟨0, 5⟩ 5, .enter 30, .exit, .text ⟨5, 9⟩ 4, .gap, .enter 40]
    let start := Printer.start 10 2 0 0
    let p := start.offered events
    p.instructions = [⟨5, 2⟩, ⟨9, 2⟩] ∧ (Printer.feed .exit).run start = .error .strayExit start ∧
      (∃ q, (Printer.feed (.other ['?'])).run p = .error (.unknownEvent ['?']) q ∧ q = p) ∧
      (∃ before e later, events = before ++ e :: later ∧
        (start.offered before).instructions.length = 1 ∧
        9 = before.foldl Event.stopAfter 0 ∧
        (2 : Int) = 0 + Frame.brokenAmong (start.offered (before ++ [e])).frames * 2) ∧
      ¬ ∃ is, p.finish = .ok is := by
  intro events start p
  obtain ⟨-, -, hrefused, hrecorded, hfinish⟩ := any_events_keep_the_frames 10 2 0 0 events
  have hinstructions : p.instructions = [⟨5, 2⟩, ⟨9, 2⟩] := by decide
  obtain ⟨before, e, later, hevents, hk, -, hoffset, hindent, -⟩ :=
    hrecorded 1 ⟨9, 2⟩ (by rw [hinstructions]; rfl)
  exact ⟨hinstructions, rfl, ⟨p, rfl, hrefused (.other ['?']) _ p rfl⟩,
    ⟨before, e, later, hevents, hk, hoffset, hindent⟩,
    fun h => absurd (hfinish.mp h) (by decide)⟩

end DiagLayout
