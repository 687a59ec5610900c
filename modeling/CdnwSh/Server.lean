import CdnwSh.Shell
import CdnwSh.Receive

/-! The loop of `run`: lines from stdin, connections, commands of the connected client and
results for the shell's own connection. One turn polls stdin, the listening socket, the
client and the connection, and handles those that are ready in this order. -/
namespace CdnwSh

/-- `clientOpen` says that `shell_server.client` is `CLIENT_STATUS_OPEN`. A descriptor that
is not there is -1. -/
structure Server where
  shell : Shell
  svrfd : Int
  clientfd : Int
  clientOpen : Bool

/-- What a turn does to the outside: `served` is a line run for a client and what is sent
back, and to whom. -/
inductive Act where
  | ran (line : Name) (reply : Option Name)
  | forwarded (line : Name)
  | served (fd : Int) (line : Name) (reply : Option Name) (receiver : Int)
  | failed (code errno : Int)
  | hungUp (fd : Int)
  | showed (results : Name)
  deriving DecidableEq

def Act.line : Act → Option Name
  | .ran line _ => some line
  | .served _ line _ _ => some line
  | _ => none

def Quiet (acts : List Act) : Prop := ∀ act ∈ acts, act.line = none

/-- A ready descriptor, with what `accept` or `recv` returns for it. -/
inductive Event where
  | stdin (line : Name)
  | ready (fd accepted : Int) (recv : Received)

def exitWord : Name := text "exit"

/-- `strncmp(line, "exit", 4)` is 0. -/
def startsExit (line : Name) : Bool := line.take 4 = exitWord

section
variable [InodeLayout]

def runLocal (line : Name) (sv : Server) : Outcome (List Act × Server) :=
  (runCmd line sv.shell).bind fun (reply, shell) => .done ([.ran line reply], { sv with shell := shell })

/-- A connected shell passes its lines on, and runs `exit` as well. -/
def onStdin (line : Name) (sv : Server) : Outcome (List Act × Server) :=
  if sv.shell.client then
    if startsExit line then
      (runLocal line sv).bind fun (acts, sv) => .done (.forwarded line :: acts, sv)
    else .done ([.forwarded line], sv)
  else runLocal line sv

/-- A new client takes the place of the one there is. -/
def acceptClient (clientfd : Int) (sv : Server) : Server :=
  if clientfd > 0 then { sv with clientOpen := true, clientfd := clientfd } else sv

/-- The branch for the client's commands. The error branch leaves the connection as it is. -/
def onClient (recv : Received) (sv : Server) : Outcome (List Act × Server) :=
  let result := recvCmd recv
  match errorBranch result with
  | some (code, errno) =>
    if ErrInTable code then .done ([.failed code errno], sv) else .undefined
  | none =>
    if 0 ∈ result then
      let line := cstr result
      if 4 ≤ line.length ∧ startsExit line then
        .done ([.hungUp sv.clientfd], { sv with clientfd := -1, clientOpen := false })
      else (runCmd line sv.shell).bind fun (reply, shell) =>
        .done ([.served sv.clientfd line reply sv.clientfd], { sv with shell := shell })
    else .undefined

def onResults (recv : Received) : Outcome (List Act) :=
  let result := recvResults recv
  match errorBranch result with
  | some (code, errno) => if ErrInTable code then .done [.failed code errno] else .undefined
  | none => if 0 ∈ result then .done [.showed (cstr result)] else .undefined

/-- The first of the three tests made for each ready descriptor. -/
def onListen (fd accepted : Int) (sv : Server) : Server :=
  if fd = sv.svrfd then acceptClient accepted sv else sv

/-- The three tests, each on the fields as they are by then. -/
def onReady (fd accepted : Int) (recv : Received) (sv : Server) : Outcome (List Act × Server) :=
  let sv := onListen fd accepted sv
  (if fd = sv.clientfd then onClient recv sv else .done ([], sv)).bind fun (acts, sv) =>
    if fd = sv.shell.cfd then (onResults recv).bind fun more => .done (acts ++ more, sv)
    else .done (acts, sv)

def Server.handle (sv : Server) : Event → Outcome (List Act × Server)
  | .stdin line => onStdin line sv
  | .ready fd accepted recv => onReady fd accepted recv sv

def Server.step (sv : Server) (e : Event) : Option (List Act × Server) := (sv.handle e).value

section
variable {sv sv' : Server} {acts : List Act} {recv : Received}

omit [InodeLayout] in
theorem startsExit_length (exits : startsExit line = true) : 4 ≤ line.length := by
  have word : line.take 4 = exitWord := of_decide_eq_true exits
  have length : (line.take 4).length = 4 := by rw [word]; decide +kernel
  rw [List.length_take] at length
  omega

theorem onClient_cases (run : onClient recv sv = .done (acts, sv')) :
    (∃ code errno, errorBranch (recvCmd recv) = some (code, errno) ∧ acts = [.failed code errno] ∧
      sv' = sv) ∨
    (errorBranch (recvCmd recv) = none ∧ startsExit (cstr (recvCmd recv)) = true ∧
      acts = [.hungUp sv.clientfd] ∧ sv' = { sv with clientfd := -1, clientOpen := false }) ∨
    ∃ reply shell, errorBranch (recvCmd recv) = none ∧ 0 ∈ recvCmd recv ∧
      startsExit (cstr (recvCmd recv)) = false ∧
      runCmd (cstr (recvCmd recv)) sv.shell = .done (reply, shell) ∧
      acts = [.served sv.clientfd (cstr (recvCmd recv)) reply sv.clientfd] ∧
      sv' = { sv with shell := shell } := by
  rw [onClient] at run
  dsimp only at run
  cases branch : errorBranch (recvCmd recv) with
  | some error =>
    obtain ⟨code, errno⟩ := error
    rw [branch] at run
    dsimp only at run
    split at run
    · cases run
      exact .inl ⟨code, errno, rfl, rfl, rfl⟩
    · cases run
  | none =>
    rw [branch] at run
    dsimp only at run
    split at run
    next ends =>
      split at run
      next leaves =>
        cases run
        exact .inr (.inl ⟨rfl, leaves.2, rfl, rfl⟩)
      next other =>
        obtain ⟨⟨reply, shell⟩, runs, run⟩ := Outcome.bind_eq_done run
        cases run
        have stays : startsExit (cstr (recvCmd recv)) = false := by
          by_contra exits
          rw [Bool.not_eq_false] at exits
          exact other ⟨startsExit_length exits, exits⟩
        exact .inr (.inr ⟨reply, shell, rfl, ends, stays, runs, rfl, rfl⟩)
    next => cases run

omit [InodeLayout] in
theorem onResults_quiet (run : onResults recv = .done acts) : Quiet acts := by
  rw [onResults] at run
  split at run
  · split at run
    · cases run
      intro act member
      rw [List.mem_singleton.mp member, Act.line]
      all_goals simp
    · cases run
  · split at run
    · cases run
      intro act member
      rw [List.mem_singleton.mp member, Act.line]
      all_goals simp
    · cases run

theorem onReady_cases (run : onReady fd accepted recv sv = .done (acts, sv')) :
    (fd ≠ (onListen fd accepted sv).clientfd ∧ sv' = onListen fd accepted sv ∧ Quiet acts) ∨
    (fd = (onListen fd accepted sv).clientfd ∧ ∃ first more, acts = first ++ more ∧ Quiet more ∧
      onClient recv (onListen fd accepted sv) = .done (first, sv')) := by
  obtain ⟨⟨first, sv₁⟩, handled, run⟩ := Outcome.bind_eq_done run
  have shown : ∃ more, acts = first ++ more ∧ Quiet more ∧ sv' = sv₁ := by
    dsimp only at run
    split at run
    · obtain ⟨more, results, run⟩ := Outcome.bind_eq_done run
      cases run
      exact ⟨more, rfl, onResults_quiet results, rfl⟩
    · cases run
      exact ⟨[], (List.append_nil _).symm, fun _ member => absurd member List.not_mem_nil, rfl⟩
  obtain ⟨more, rfl, quiet, rfl⟩ := shown
  by_cases client : fd = (onListen fd accepted sv).clientfd
  · rw [if_pos client] at handled
    exact .inr ⟨client, first, more, rfl, quiet, handled⟩
  · rw [if_neg client] at handled
    cases handled
    exact .inl ⟨client, rfl, quiet⟩

theorem onStdin_cases (run : onStdin line sv = .done (acts, sv')) :
    (sv.shell.client = true ∧ startsExit line = false ∧ acts = [.forwarded line] ∧ sv' = sv) ∨
    ((sv.shell.client = true → startsExit line = true) ∧ ∃ reply shell first,
      runCmd line sv.shell = .done (reply, shell) ∧ Quiet first ∧
      acts = first ++ [.ran line reply] ∧ sv' = { sv with shell := shell }) := by
  rw [onStdin] at run
  split at run
  next client =>
    split at run
    next exits =>
      obtain ⟨⟨inner, sv₁⟩, runs, run⟩ := Outcome.bind_eq_done run
      obtain ⟨⟨reply, shell⟩, ran, runs⟩ := Outcome.bind_eq_done runs
      cases runs
      cases run
      refine .inr ⟨fun _ => exits, reply, shell, [.forwarded line], ran, fun act member => ?_, rfl, rfl⟩
      rw [List.mem_singleton.mp member]
      rfl
    next other =>
      cases run
      exact .inl ⟨client, by simpa using other, rfl, rfl⟩
  next alone =>
    obtain ⟨⟨reply, shell⟩, ran, run⟩ := Outcome.bind_eq_done run
    cases run
    exact .inr ⟨fun client => absurd client alone, reply, shell, [], ran,
      fun _ member => absurd member List.not_mem_nil, rfl, rfl⟩

end
end

def idleServer : Server where
  shell := Shell.started (fun _ => Block.zero) ⟨fun _ => none, fun _ => 0, fun _ => none, .full⟩
    ⟨fun _ _ => .refused, 0, []⟩ ⟨fun _ => [], fun _ => []⟩
  svrfd := 3
  clientfd := -1
  clientOpen := false

end CdnwSh
