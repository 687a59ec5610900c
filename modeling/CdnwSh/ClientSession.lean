import CdnwSh.Library.PartialRun
import CdnwSh.Server

/-! The session of a connected client over runs of the server: which client
`shell_server.clientfd` denotes, to whom replies go, and what is left when it goes. -/
namespace CdnwSh

open PartialRun

/-- The client `c` says `exit`, or closes its end. -/
def Leaves (c : Int) : Event → Prop
  | .stdin _ => False
  | .ready fd _ recv => fd = c ∧ (recv = .closed ∨
      errorBranch (recvCmd recv) = none ∧ startsExit (cstr (recvCmd recv)) = true)

/-- `accept` hands out no descriptor that is polled, no connection is accepted while a
client is there, and a client does not close its end without saying `exit`. -/
def Orderly (sv : Server) : Event → Prop
  | .stdin _ => True
  | .ready fd accepted recv => fd ≠ -1 ∧ (fd = sv.svrfd → accepted ≠ fd) ∧
      (sv.clientfd ≠ -1 → (fd = sv.svrfd → accepted ≤ 0) ∧ (fd = sv.clientfd → recv ≠ .closed))

section
variable [InodeLayout] {sv sv' m m' : Server} {acts : List Act} {e : Event} {recv : Received}
  {trace : List (Event × List Act)}

def NoReply (acts : List Act) : Prop := ∀ fd line reply to', Act.served fd line reply to' ∉ acts

omit [InodeLayout] in
theorem Quiet.noReply (quiet : Quiet acts) : NoReply acts := fun _ _ _ _ member => by
  cases quiet _ member

theorem onStdin_session (run : onStdin line sv = .done (acts, sv')) :
    sv'.clientfd = sv.clientfd ∧ sv'.clientOpen = sv.clientOpen ∧ sv'.svrfd = sv.svrfd ∧
      NoReply acts := by
  rcases onStdin_cases run with ⟨_, _, rfl, rfl⟩ | ⟨_, reply, shell, first, _, quiet, rfl, rfl⟩
  · refine ⟨rfl, rfl, rfl, fun _ _ _ _ member => ?_⟩
    cases List.mem_singleton.mp member
  · refine ⟨rfl, rfl, rfl, fun _ _ _ _ member => ?_⟩
    rcases List.mem_append.mp member with early | late
    · exact quiet.noReply _ _ _ _ early
    · cases List.mem_singleton.mp late

/-- What a single event does to the session. -/
structure SessionKept (sv : Server) (e : Event) (acts : List Act) (sv' : Server) : Prop where
  kept : sv.clientfd ≠ -1 → ¬ Leaves sv.clientfd e →
    sv'.clientfd = sv.clientfd ∧ sv'.clientOpen = sv.clientOpen
  left : sv.clientfd ≠ -1 → Leaves sv.clientfd e → sv'.clientfd = -1 ∧ sv'.clientOpen = false
  replies : ∀ fd line reply receiver, .served fd line reply receiver ∈ acts →
    receiver = fd ∧ fd = sv.clientfd ∧ ∃ accepted recv, e = .ready fd accepted recv

def Server.Agrees (sv : Server) : Prop := sv.clientOpen = true ↔ sv.clientfd ≠ -1

omit [InodeLayout] in
theorem onListen_other (busy : fd = sv.svrfd → accepted ≤ 0) : onListen fd accepted sv = sv := by
  rw [onListen]
  split
  next listening =>
    have := busy listening
    rw [acceptClient, if_neg (by omega)]
  next => rfl

omit [InodeLayout] in
theorem onListen_apart (valid : fd ≠ -1) (fresh : fd = sv.svrfd → accepted ≠ fd)
    (absent : sv.clientfd = -1) : fd ≠ (onListen fd accepted sv).clientfd := by
  rw [onListen]
  split
  next listening =>
    rw [acceptClient]
    split
    · exact (fresh listening).symm
    · rwa [absent]
  next => rwa [absent]

omit [InodeLayout] in
theorem onListen_agrees (agrees : sv.Agrees) : (onListen fd accepted sv).Agrees := by
  rw [onListen]
  split
  · rw [acceptClient]
    split
    next positive => exact ⟨fun _ => show accepted ≠ -1 by omega, fun _ => rfl⟩
    · exact agrees
  · exact agrees

omit [InodeLayout] in
theorem replies_append {P : Int → Int → Prop} (none : NoReply more)
    (replies : ∀ fd line reply receiver, .served fd line reply receiver ∈ first → P fd receiver) :
    ∀ fd line reply receiver, .served fd line reply receiver ∈ first ++ more → P fd receiver := by
  intro fd line reply receiver member
  rcases List.mem_append.mp member with member | member
  · exact replies fd line reply receiver member
  · exact absurd member (none fd line reply receiver)

/-- An orderly event keeps the session, ends it when its client leaves, and answers no one
else. -/
theorem step_session (agrees : sv.Agrees) (orderly : Orderly sv e)
    (run : sv.step e = some (acts, sv')) : SessionKept sv e acts sv' ∧ sv'.Agrees := by
  have handled := Outcome.value_eq_some run
  cases e with
  | stdin line =>
    obtain ⟨fd, isOpen, _, none⟩ := onStdin_session handled
    refine ⟨⟨fun _ _ => ⟨fd, isOpen⟩, fun _ => False.elim, fun _ _ _ _ member => ?_⟩, ?_⟩
    · exact absurd member (none _ _ _ _)
    · rw [Server.Agrees, fd, isOpen]
      exact agrees
  | ready fd accepted recv =>
    obtain ⟨valid, fresh, calm⟩ := orderly
    by_cases absent : sv.clientfd = -1
    · rcases onReady_cases handled with ⟨_, same, quiet⟩ | ⟨client, _⟩
      · refine ⟨⟨fun there => absurd absent there, fun there => absurd absent there,
          fun _ _ _ _ member => absurd member (quiet.noReply _ _ _ _)⟩, ?_⟩
        rw [same]
        exact onListen_agrees agrees
      · exact absurd client (onListen_apart valid fresh absent)
    · obtain ⟨busy, stays⟩ := calm absent
      rw [Server.handle] at handled
      have listen : onListen fd accepted sv = sv := onListen_other busy
      rcases onReady_cases handled with ⟨other, same, quiet⟩ | ⟨client, first, more, rfl, quiet, runs⟩
      · rw [listen] at other same
        subst same
        exact ⟨⟨fun _ _ => ⟨rfl, rfl⟩, fun _ leaves => absurd leaves.1 other,
          fun _ _ _ _ member => absurd member (quiet.noReply _ _ _ _)⟩, agrees⟩
      · rw [listen] at client runs
        rcases onClient_cases runs with ⟨code, errno, error, rfl, rfl⟩ | ⟨fine, exits, rfl, rfl⟩ |
          ⟨reply, shell, fine, _, silent, _, rfl, rfl⟩
        · refine ⟨⟨fun _ _ => ⟨rfl, rfl⟩, fun _ leaves => ?_,
            replies_append quiet.noReply fun _ _ _ _ member => ?_⟩, agrees⟩
          · rcases leaves.2 with closed | ⟨fine, _⟩
            · exact absurd closed (stays client)
            · rw [error] at fine
              cases fine
          · cases List.mem_singleton.mp member
        · refine ⟨⟨fun _ stays => ?_, fun _ _ => ⟨rfl, rfl⟩,
            replies_append quiet.noReply fun _ _ _ _ member => ?_⟩, ?_⟩
          · exact absurd ⟨client, .inr ⟨fine, exits⟩⟩ stays
          · cases List.mem_singleton.mp member
          · exact ⟨fun impossible => (nomatch impossible), fun impossible => absurd rfl impossible⟩
        · refine ⟨⟨fun _ _ => ⟨rfl, rfl⟩, fun _ leaves => ?_,
            replies_append quiet.noReply fun _ _ _ _ member => ?_⟩, agrees⟩
          · rcases leaves.2 with closed | ⟨_, exits⟩
            · exact absurd closed (stays client)
            · rw [silent] at exits
              cases exits
          · cases List.mem_singleton.mp member
            exact ⟨rfl, rfl, accepted, recv, by rw [client]⟩

/-- While its client stays, a session goes on. -/
theorem session_goes_on (steps : Steps Server.step Orderly m trace m') (agrees : m.Agrees)
    (there : m.clientfd ≠ -1) (stays : ∀ item ∈ trace, ¬ Leaves m.clientfd item.1) :
    m'.clientfd = m.clientfd := by
  induction steps with
  | nil => rfl
  | @cons sv e acts middle rest final orderly moved _ ih =>
    obtain ⟨session, after⟩ := step_session agrees orderly moved
    have same := (session.kept there (stays _ List.mem_cons_self)).1
    rw [← same]
    refine ih after (by rwa [same]) fun item member => ?_
    rw [same]
    exact stays item (List.mem_cons_of_mem _ member)

theorem agrees_run (steps : Steps Server.step Orderly sv trace sv') (agrees : sv.Agrees) :
    sv'.Agrees :=
  steps.invariant Server.Agrees (fun _ _ _ _ agrees orderly moved =>
    (step_session agrees orderly moved).2) agrees

/-- In a run of orderly events from a server without a client: from any point at which a
client is there, `clientfd` denotes it as long as it neither says `exit` nor closes its
end; when it does, there is no client any more; and what is sent back for a command goes
to the client that sent it. -/
theorem client_session (steps : Steps Server.step Orderly sv trace sv')
    (fresh : sv.clientfd = -1 ∧ sv.clientOpen = false) :
    (∀ before during after, trace = before ++ during ++ after → ∃ m m',
      Steps Server.step Orderly sv before m ∧ Steps Server.step Orderly m during m' ∧
      (m.clientfd ≠ -1 → (∀ item ∈ during, ¬ Leaves m.clientfd item.1) →
        m'.clientfd = m.clientfd ∧ m'.clientOpen = true)) ∧
    (∀ before e acts after, trace = before ++ (e, acts) :: after → ∃ m m',
      Steps Server.step Orderly sv before m ∧ m.step e = some (acts, m') ∧
      (m.clientfd ≠ -1 → Leaves m.clientfd e → m'.clientfd = -1 ∧ m'.clientOpen = false) ∧
      (∀ fd line reply receiver, .served fd line reply receiver ∈ acts →
        receiver = fd ∧ ∃ accepted recv, e = .ready fd accepted recv)) := by
  have start : sv.Agrees := by
    rw [Server.Agrees, fresh.1, fresh.2]
    decide
  constructor
  · rintro before during after rfl
    rw [List.append_assoc] at steps
    obtain ⟨m, first, others⟩ := steps.split
    obtain ⟨m', second, _⟩ := others.split
    have agrees := agrees_run first start
    refine ⟨m, m', first, second, fun there stays => ?_⟩
    have same := session_goes_on second agrees there stays
    refine ⟨same, (agrees_run second agrees).mpr ?_⟩
    rwa [same]
  · rintro before e acts after rfl
    obtain ⟨m, first, others⟩ := steps.split
    cases others with
    | @cons _ _ _ m' _ _ orderly moved _ =>
      obtain ⟨session, _⟩ := step_session (agrees_run first start) orderly moved
      refine ⟨m, m', first, moved, session.left, fun fd line reply receiver member => ?_⟩
      obtain ⟨same, _, source⟩ := session.replies fd line reply receiver member
      exact ⟨same, source⟩

end

section Lp64
attribute [local instance] lp64

def visited : Server := { idleServer with clientfd := 4, clientOpen := true }

def visit : Event := .ready 3 4 .closed
def goodbye : Event := .ready 4 0 (.bytes [101, 120, 105, 116, 10])

theorem visit_eq : idleServer.step visit = some ([], visited) := rfl

def question : Event := .ready 4 0 (.bytes [108, 115, 10])

theorem question_eq : ∃ line, visited.step question =
    some ([.served 4 line (some (mesgErr SH_ERR_NOVFS)) 4], visited) := ⟨_, rfl⟩

theorem goodbye_eq : visited.step goodbye = some ([.hungUp 4], idleServer) := rfl

theorem guest_orderly : Orderly idleServer visit ∧ Orderly visited question ∧ Orderly visited goodbye :=
  ⟨⟨by decide, fun _ => by decide, fun there => absurd rfl there⟩,
    ⟨by decide, fun _ => by decide, fun _ => ⟨fun _ => by decide, fun _ => nofun⟩⟩,
    ⟨by decide, fun _ => by decide, fun _ => ⟨fun _ => by decide, fun _ => nofun⟩⟩⟩

/-- A client that comes, asks and says `exit`, and after it one that comes and asks. -/
def guests (line : Name) : List (Event × List Act) :=
  let answered := (question, [Act.served 4 line (some (mesgErr SH_ERR_NOVFS)) 4])
  [(visit, []), answered, (goodbye, [.hungUp 4]), (visit, []), answered]

theorem client_session_two : ∃ line,
    (∀ before during after, guests line = before ++ during ++ after → ∃ m m',
      Steps Server.step Orderly idleServer before m ∧ Steps Server.step Orderly m during m' ∧
        (m.clientfd ≠ -1 → (∀ item ∈ during, ¬ Leaves m.clientfd item.1) →
          m'.clientfd = m.clientfd ∧ m'.clientOpen = true)) ∧
    (∀ before e acts after, guests line = before ++ (e, acts) :: after →
      ∃ m m', Steps Server.step Orderly idleServer before m ∧ m.step e = some (acts, m') ∧
        (m.clientfd ≠ -1 → Leaves m.clientfd e → m'.clientfd = -1 ∧ m'.clientOpen = false) ∧
        (∀ fd line reply receiver, .served fd line reply receiver ∈ acts →
          receiver = fd ∧ ∃ accepted recv, e = .ready fd accepted recv)) := by
  obtain ⟨line, answered⟩ := question_eq
  obtain ⟨comes, asks, leaves⟩ := guest_orderly
  have steps : Steps Server.step Orderly idleServer (guests line) visited := .cons comes visit_eq
    (.cons asks answered (.cons leaves goodbye_eq (.cons comes visit_eq (.single asks answered))))
  exact ⟨line, client_session steps ⟨rfl, rfl⟩⟩

/-- A second connection takes the session away from the first client, and a client that
closes its end stays the server's client. -/
theorem client_session_lost :
    idleServer.step visit = some ([], visited) ∧
    (∃ s, visited.step (.ready 3 5 .closed) = some ([], s) ∧
      ¬ Leaves visited.clientfd (.ready 3 5 .closed) ∧ s.clientfd = 5) ∧
    (∃ acts s, visited.step (.ready 4 0 .closed) = some (acts, s) ∧
      Leaves visited.clientfd (.ready 4 0 .closed) ∧ s.clientfd = 4) :=
  ⟨visit_eq, ⟨_, rfl, fun leaves => absurd leaves.1 (by decide), rfl⟩, ⟨_, _, rfl, ⟨rfl, .inl rfl⟩, rfl⟩⟩

end Lp64

end CdnwSh
