import CdnwSh.Library.PartialRun
import CdnwSh.Server

/-! The command lines a client sends and the lines its server runs. The stream between
them has no frames: `send` may take a part of a line, and `recv` cuts what is pending
anywhere. -/
namespace CdnwSh

open PartialRun

/-- What `send_cmd` puts on the stream when `send` takes `taken` bytes. It does not look at
what was left over. -/
def sendCmd (cmdbuffer : Name) (taken : Nat) : Name :=
  let cmdLen := if cmdbuffer.length > SH_MAX_STR then SH_MAX_STR else cmdbuffer.length
  (cmdbuffer.take cmdLen).take taken

/-- The bytes that are on their way to a server. -/
structure Link where
  pending : Name
  server : Server

inductive LinkOp where
  | send (line : Name) (taken : Nat)
  | recv (n : Nat)

section
variable [InodeLayout]

/-- A send of the client, or a turn in which the server receives the next `n` bytes. -/
def Link.step (l : Link) : LinkOp → Option (List Act × Link)
  | .send line taken => some ([], { l with pending := l.pending ++ sendCmd line taken })
  | .recv n => do
    if l.server.clientfd = -1 then none
    else
      let (acts, server) ← (onClient (.bytes (l.pending.take n)) l.server).value
      return (acts, ⟨l.pending.drop n, server⟩)

/-- A line as the client's run loop passes it on, other than an exit. -/
structure IsLine (line : Name) : Prop where
  ends : ∃ p, newline ∉ p ∧ line = p ++ [newline]
  short : line.length < SH_MAX_STR
  clean : 0 ∉ line
  stays : startsExit line = false

/-- What the network can do: `send` takes some of the line, and `recv` delivers some of
what is pending. -/
def Possible (l : Link) : LinkOp → Prop
  | .send line taken => IsLine line ∧ 1 ≤ taken ∧ taken ≤ line.length
  | .recv n => 1 ≤ n ∧ n ≤ SH_MAX_STR ∧ n ≤ l.pending.length

/-- Every line goes out whole and comes in alone. -/
def Framed (l : Link) : LinkOp → Prop
  | .send line taken => taken = line.length
  | .recv n => l.pending.take n = firstLine l.pending

/-- The line that `run_cmd` runs: it stops at the first newline of its argument. -/
def Act.executed : Act → Option Name
  | .served _ line _ _ => some (firstLine line)
  | _ => none

def LinkOp.sent : LinkOp → Option Name
  | .send line _ => some line
  | .recv _ => none

def executed (trace : List (LinkOp × List Act)) : List Name :=
  trace.flatMap fun item => item.2.filterMap Act.executed

def sent (trace : List (LinkOp × List Act)) : List Name := trace.filterMap fun item => item.1.sent

section
variable {l l' : Link} {trace : List (LinkOp × List Act)} {line : Name}

omit [InodeLayout] in
theorem IsLine.firstLine (isLine : IsLine line) (starts : line <+: t) : firstLine t = line := by
  obtain ⟨p, clean, rfl⟩ := isLine.ends
  exact firstLine_eq clean starts

omit [InodeLayout] in
theorem IsLine.length_pos (isLine : IsLine line) : 0 < line.length := by
  obtain ⟨p, _, rfl⟩ := isLine.ends
  simp

omit [InodeLayout] in
theorem sendCmd_eq (isLine : IsLine line) (taken : Nat) : sendCmd line taken = line.take taken := by
  have short := isLine.short
  rw [sendCmd, if_neg (by omega), List.take_length]

omit [InodeLayout] in
theorem IsLine.nonempty (isLine : IsLine line) : line ≠ [] := by
  rintro rfl
  exact absurd isLine.length_pos (by simp)

theorem IsLine.served (isLine : IsLine line) (run : onClient (.bytes line) sv = .done (acts, sv')) :
    acts.filterMap Act.executed = [line] := by
  have payload : errorBranch (recvCmd (.bytes line)) = none :=
    received_payload isLine.nonempty isLine.clean
  obtain ⟨_, text⟩ : _ ∧ cstr (recvCmd (.bytes line)) = line :=
    received_string isLine.short isLine.clean
  rcases onClient_cases run with ⟨_, _, error, _, _⟩ | ⟨_, leaves, _, _⟩ | ⟨_, _, _, _, _, _, same, _⟩
  · rw [payload] at error
    cases error
  · rw [text, isLine.stays] at leaves
    cases leaves
  · rw [same, text]
    simp [Act.executed, isLine.firstLine List.prefix_rfl]

theorem executed_prefix (run : onClient (.bytes chunk) sv = .done (acts, sv')) :
    acts.filterMap Act.executed = [] ∨
      ∃ line, acts.filterMap Act.executed = [line] ∧ line <+: chunk := by
  rcases onClient_cases run with ⟨_, _, _, same, _⟩ | ⟨_, _, same, _⟩ | ⟨_, _, _, _, _, _, same, _⟩
  · left; rw [same]; rfl
  · left; rw [same]; rfl
  · right
    rw [same]
    refine ⟨_, rfl, (firstLine_starts _).trans ?_⟩
    rw [recvCmd, cstr_received]
    exact List.takeWhile_prefix _

theorem Link.recv_eq (run : l.step (.recv n) = some (acts, l')) :
    onClient (.bytes (l.pending.take n)) l.server = .done (acts, l'.server) ∧
      l'.pending = l.pending.drop n := by
  rw [Link.step] at run
  split at run
  · cases run
  · obtain ⟨⟨acts', server⟩, handled, run⟩ := Option.bind_eq_some_iff.mp run
    cases run
    exact ⟨Outcome.value_eq_some handled, rfl⟩

theorem Link.send_eq (isLine : IsLine line) (run : l.step (.send line taken) = some (acts, l')) :
    acts = [] ∧ l' = { l with pending := l.pending ++ line.take taken } := by
  cases run
  rw [sendCmd_eq isLine]
  exact ⟨rfl, rfl⟩

omit [InodeLayout] in
@[simp] theorem executed_cons : executed ((op, acts) :: trace) =
    acts.filterMap Act.executed ++ executed trace := rfl

omit [InodeLayout] in
@[simp] theorem sent_send : sent ((.send line taken, acts) :: trace) = line :: sent trace := rfl

omit [InodeLayout] in
@[simp] theorem sent_recv : sent ((.recv n, acts) :: trace) = sent trace := rfl

/-- Lines that go out whole and come in alone are run one after the other. -/
theorem framed_run (steps : Steps Link.step (fun l op => Possible l op ∧ Framed l op) l trace l')
    (left : List Name) (lines : ∀ line ∈ left, IsLine line) (pending : l.pending = left.flatten)
    (delivered : l'.pending = []) : executed trace = left ++ sent trace := by
  induction steps generalizing left with
  | nil =>
    cases left with
    | nil => rfl
    | cons line rest =>
      rw [pending, List.flatten_cons, List.append_eq_nil_iff] at delivered
      exact absurd delivered.1 (lines line (by simp)).nonempty
  | @cons l op acts middle trace final guard moved _ ih =>
    obtain ⟨possible, framed⟩ := guard
    cases op with
    | send line taken =>
      obtain ⟨rfl, rfl⟩ := Link.send_eq possible.1 moved
      have lines' : ∀ other ∈ left ++ [line], IsLine other := by
        intro other member
        rcases List.mem_append.mp member with old | new
        · exact lines other old
        · rw [List.mem_singleton.mp new]
          exact possible.1
      have pending' : l.pending ++ line.take taken = (left ++ [line]).flatten := by
        rw [show taken = line.length from framed, List.take_length, pending]
        simp
      rw [executed_cons, sent_send, ih (left ++ [line]) lines' pending' delivered]
      simp
    | recv n =>
      obtain ⟨handled, rest⟩ := Link.recv_eq moved
      obtain ⟨some, _, inside⟩ := possible
      cases left with
      | nil =>
        simp only [pending, List.flatten_nil, List.length_nil] at inside
        omega
      | cons line others =>
        have isLine := lines line (by simp)
        have first : l.pending.take n = line := by
          rw [show l.pending.take n = _ from framed, pending, List.flatten_cons]
          exact isLine.firstLine (List.prefix_append _ _)
        have count : n = line.length := by rw [← first, List.length_take]; omega
        rw [first] at handled
        rw [executed_cons, isLine.served handled, sent_recv,
          ih others (fun other member => lines other (by simp [member])) ?_ delivered]
        · rfl
        · rw [rest, pending, count, List.flatten_cons, List.drop_left]

/-- No more is run than was sent. When it is as much, in terminated lines, every line went
out whole and came in alone. -/
theorem executed_balance (steps : Steps Link.step Possible l trace l') :
    (executed trace).flatten.length + l'.pending.length ≤
      l.pending.length + (sent trace).flatten.length ∧
    ((executed trace).flatten.length + l'.pending.length =
        l.pending.length + (sent trace).flatten.length →
      (∀ line ∈ executed trace, ∃ p, newline ∉ p ∧ line = p ++ [newline]) →
      Steps Link.step (fun l op => Possible l op ∧ Framed l op) l trace l') := by
  induction steps with
  | nil => exact ⟨by simp [executed, sent], fun _ _ => .nil⟩
  | @cons l op acts middle trace final possible moved _ ih =>
    obtain ⟨bound, tight⟩ := ih
    cases op with
    | send line taken =>
      obtain ⟨rfl, rfl⟩ := Link.send_eq possible.1 moved
      have part : (line.take taken).length = taken := by
        rw [List.length_take]; have := possible.2.2; omega
      simp only [List.length_append, part] at bound tight
      simp only [executed_cons, List.filterMap_nil, List.nil_append, sent_send, List.flatten_cons,
        List.length_append]
      have limit := possible.2.2
      refine ⟨by omega, fun equal terminated => ?_⟩
      exact .cons ⟨possible, show taken = line.length by omega⟩ moved (tight (by omega) terminated)
    | recv n =>
      obtain ⟨handled, rest⟩ := Link.recv_eq moved
      obtain ⟨some, short, inside⟩ := possible
      rw [rest, List.length_drop] at bound tight
      rw [executed_cons, sent_recv]
      rcases executed_prefix handled with none | ⟨line, one, starts⟩
      · rw [none, List.nil_append]
        exact ⟨by omega, fun equal => by omega⟩
      · have least : line.length ≤ n := by
          have := starts.length_le
          rw [List.length_take] at this
          omega
        simp only [one, List.flatten_cons, List.length_append, List.cons_append, List.nil_append]
        refine ⟨by omega, fun equal terminated => ?_⟩
        obtain ⟨p, clean, ends⟩ := terminated line (by simp)
        have all : line = l.pending.take n :=
          starts.eq_of_length (by rw [List.length_take]; omega)
        have framed : Framed l (.recv n) := by
          change l.pending.take n = firstLine l.pending
          rw [firstLine_eq clean (by rw [← ends, all]; exact List.take_prefix _ _), ← ends, all]
        exact .cons ⟨⟨some, short, inside⟩, framed⟩ moved
          (tight (by omega) fun other member => terminated other (by simp [member]))

theorem sent_lines (steps : Steps Link.step Possible l trace l') : ∀ line ∈ sent trace, IsLine line := by
  induction steps with
  | nil => simp [sent]
  | @cons l op acts middle trace final possible moved _ ih =>
    cases op with
    | send line taken =>
      intro other member
      rcases List.mem_cons.mp member with rfl | member
      · exact possible.1
      · exact ih other member
    | recv n => exact ih

/-- When everything that was put on the stream has been received, the server has run
exactly the lines the client sent, each once, whole and in order, if and only if every
line went out whole and came in alone. -/
theorem remote_lines (steps : Steps Link.step Possible l trace l') (start : l.pending = [])
    (delivered : l'.pending = []) :
    executed trace = sent trace ↔
      Steps Link.step (fun l op => Possible l op ∧ Framed l op) l trace l' := by
  constructor
  · intro same
    refine (executed_balance steps).2 ?_ fun line member => ?_
    · rw [same, start, delivered, Nat.add_comm]
    · exact (sent_lines steps line (same ▸ member)).ends
  · intro framed
    exact framed_run framed [] (by simp) (by simpa using start) delivered

end
end

section Lp64
attribute [local instance] lp64

def freshLink : Link := ⟨[], { idleServer with clientfd := 4, clientOpen := true }⟩

def lsLine : Name := [108, 115, 10]
def pwdLine : Name := [112, 119, 100, 10]

theorem lsLine_isLine : IsLine lsLine := ⟨⟨[108, 115], by decide, rfl⟩, by decide, by decide, by decide +kernel⟩
theorem pwdLine_isLine : IsLine pwdLine :=
  ⟨⟨[112, 119, 100], by decide, rfl⟩, by decide, by decide, by decide +kernel⟩

/-- Two lines, each of which comes in as it went out. -/
theorem remote_lines_both : ∃ acts more l',
    executed [(.send lsLine 3, []), (.recv 3, acts), (.send pwdLine 4, []), (.recv 4, more)] =
        [lsLine, pwdLine] ↔
      Steps Link.step (fun l op => Possible l op ∧ Framed l op) freshLink
        [(.send lsLine 3, []), (.recv 3, acts), (.send pwdLine 4, []), (.recv 4, more)] l' := by
  have defined : ((({ freshLink with pending := lsLine } : Link).step (.recv 3)).bind fun x =>
      ({ x.2 with pending := pwdLine } : Link).step (.recv 4)).isSome := by decide +kernel
  obtain ⟨⟨more, l'⟩, run⟩ := Option.isSome_iff_exists.mp defined
  obtain ⟨⟨acts, l⟩, first, second⟩ := Option.bind_eq_some_iff.mp run
  have drained : l.pending = [] := (Link.recv_eq first).2
  have sent : l.step (.send pwdLine 4) = some ([], { l with pending := pwdLine }) := by
    rw [Link.step, drained]
    rfl
  have steps : Steps Link.step Possible freshLink
      [(.send lsLine 3, []), (.recv 3, acts), (.send pwdLine 4, []), (.recv 4, more)] l' :=
    .cons ⟨lsLine_isLine, by decide, by decide⟩ rfl
      (.cons (show Possible { freshLink with pending := lsLine } (.recv 3) from
        ⟨by decide, by decide, by decide⟩) first
      (.cons ⟨pwdLine_isLine, by decide, by decide⟩ sent
      (.cons (show Possible { l with pending := pwdLine } (.recv 4) from
        ⟨by decide, by decide, Nat.le_refl 4⟩) second .nil)))
  exact ⟨acts, more, l', remote_lines steps rfl (Link.recv_eq second).2⟩

/-- Two lines that are received together: the second one is not run. -/
theorem remote_lines_lost : ∃ trace l', Steps Link.step Possible freshLink trace l' ∧
    l'.pending = [] ∧ sent trace = [lsLine, pwdLine] ∧ executed trace ≠ sent trace := by
  have defined : (({ freshLink with pending := lsLine ++ pwdLine } : Link).step (.recv 7)).isSome := by
    decide +kernel
  obtain ⟨⟨acts, l'⟩, run⟩ := Option.isSome_iff_exists.mp defined
  obtain ⟨handled, rest⟩ := Link.recv_eq run
  refine ⟨[(.send lsLine 3, []), (.send pwdLine 4, []), (.recv 7, acts)], l', ?_, rest, rfl, ?_⟩
  · exact .cons ⟨lsLine_isLine, by decide, by decide⟩ rfl
      (.cons ⟨pwdLine_isLine, by decide, by decide⟩ rfl
        (.cons (show Possible { freshLink with pending := lsLine ++ pwdLine } (.recv 7) from
          ⟨by decide, by decide, by decide⟩) run .nil))
  · have few : (acts.filterMap Act.executed).length ≤ 1 := by
      rcases executed_prefix handled with none | ⟨line, one, _⟩
      · rw [none]; decide
      · rw [one]; exact Nat.le_refl 1
    intro same
    have length := congrArg List.length same
    simp [executed, sent, LinkOp.sent] at length
    simp [length] at few

end Lp64
end CdnwSh
