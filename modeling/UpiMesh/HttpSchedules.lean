import UpiMesh.HttpApi
import UpiMesh.Delivery
import UpiMesh.Sections

/-!
# Schedules of requests

Requests that are handled at the same time interleave exactly as the calls do which they make: the
requests that are answered at once can be left out, and the responses show the replies.
-/

namespace UpiMesh

open Concurrent Locking

namespace Plan

variable {json : JsonLibrary}

/-- The calls that are made. -/
def calls : List (Plan json) → List ServerCall
  | [] => []
  | .answer _ :: plans => calls plans
  | .call c _ :: plans => c :: calls plans

/-- The answers, from the replies to the calls. -/
def answers : List (Plan json) → List (ServerReply json) → List (Answer json)
  | [], _ => []
  | .answer a :: plans, replies => a :: answers plans replies
  | .call _ respond :: plans, reply :: replies => respond reply :: answers plans replies
  | .call _ _ :: _, [] => []

end Plan

namespace Task

variable {web : HttpServer}

/-- The calls of a session, in order. -/
def calls (web : HttpServer) (tasks : List (Task web.lib)) : List ServerCall :=
  Plan.calls (tasks.map (Task.plan web))

def answers (web : HttpServer) (tasks : List (Task web.lib)) (replies : List (ServerReply web.json)) :
    List (Answer web.json) := Plan.answers (tasks.map (Task.plan web)) replies

/-- A session is the session of its calls. -/
theorem programs_eq (tasks : List (Task web.lib)) : programs web tasks =
    ServerCall.programs web.crypto web.json web.binary64 (calls web tasks) >>=
      fun replies => .ret (answers web tasks replies) := by
  induction tasks with
  | nil => rfl
  | cons task tasks ih =>
    rw [programs, program_eq, ih]
    unfold calls answers
    rw [List.map_cons]
    cases task.plan web with
    | answer a => exact Program.bind_assoc _ _ _
    | call c respond =>
      simp only [Plan.program, Plan.calls, ServerCall.programs, Program.bind_assoc]
      rfl

/-- What holds of the replies to the calls holds of the answers to the requests. -/
theorem answers_forall₂ {R : ServerCall → ServerReply web.json → Prop}
    {R' : Task web.lib → Answer web.json → Prop} {tasks : List (Task web.lib)}
    {replies : List (ServerReply web.json)}
    (hanswer : ∀ task a, Task.plan web task = .answer a → R' task a)
    (hcall : ∀ task c respond reply, Task.plan web task = .call c respond → R c reply →
      R' task (respond reply))
    (h : List.Forall₂ R (calls web tasks) replies) :
    List.Forall₂ R' tasks (answers web tasks replies) := by
  unfold calls at h
  unfold answers
  induction tasks generalizing replies with
  | nil => exact .nil
  | cons task tasks ih =>
    rw [List.map_cons] at h ⊢
    cases hplan : task.plan web with
    | answer a =>
      rw [hplan] at h
      exact .cons (hanswer task a hplan) (ih h)
    | call c respond =>
      rw [hplan] at h
      cases h with
      | cons hreply hrest => exact .cons (hcall task c respond _ hplan hreply) (ih hrest)

/-- Every call comes from one of the requests. -/
theorem exists_of_mem_calls {tasks : List (Task web.lib)} {c : ServerCall} (h : c ∈ calls web tasks) :
    ∃ task ∈ tasks, ∃ respond, task.plan web = .call c respond := by
  unfold calls at h
  induction tasks with
  | nil => exact absurd h List.not_mem_nil
  | cons task tasks ih =>
    rw [List.map_cons] at h
    cases hplan : task.plan web with
    | answer a =>
      rw [hplan] at h
      obtain ⟨task', htask', hcall⟩ := ih h
      exact ⟨task', List.mem_cons_of_mem _ htask', hcall⟩
    | call c' respond =>
      rw [hplan] at h
      rcases List.mem_cons.mp h with rfl | h
      · exact ⟨task, List.mem_cons_self, respond, hplan⟩
      · obtain ⟨task', htask', hcall⟩ := ih h
        exact ⟨task', List.mem_cons_of_mem _ htask', hcall⟩

end Task

section Start

variable {ι : Type} (web : HttpServer)

/-- Each thread of the server with the requests it is to handle, with all mutexes free. -/
def Task.initially (order : ι → ℤ → IterOrder) (tasks : ι → List (Task web.lib)) (s : Server) :
    LockedThreads ι (List (Answer web.json)) :=
  ⟨⟨fun _ => none, s.parts⟩, fun i => Locked.code i (order i) (Task.programs web (tasks i))⟩

theorem Task.initially_eq (order : ι → ℤ → IterOrder) (tasks : ι → List (Task web.lib)) (s : Server) :
    Task.initially web order tasks s =
      (Locked.initially web.crypto web.json web.binary64 order (fun i => Task.calls web (tasks i)) s).mapResults
        fun i => Task.answers web (tasks i) := by
  refine congrArg (Pool.mk _) (funext fun i => ?_)
  rw [Task.programs_eq, Locked.code, Program.expand_bind]
  rfl

end Start

section Schedules

variable {ι : Type} [DecidableEq ι] (web : HttpServer) (order : ι → ℤ → IterOrder)
  (tasks : ι → List (Task web.lib)) (s : Server)

omit [DecidableEq ι] in
/-- The requests on the level of calls. -/
theorem Task.atomic_eq : (⟨s, fun i => Task.programs web (tasks i)⟩ :
      Pool ι Call Call.Response (List (Answer web.json)) Server) =
    (ServerCall.initially web.crypto web.json web.binary64 (fun i => Task.calls web (tasks i)) s).mapResults
      fun i => Task.answers web (tasks i) :=
  congrArg (Pool.mk s) (funext fun i => Task.programs_eq (tasks i))

/-- What the locks let happen to the requests can happen with atomic calls. -/
theorem exists_atomic_requests {trace : List (ι × Locking ι Mutex Access)}
    {c : LockedThreads ι (List (Answer web.json))}
    (hrun : Pool.Run (exec guards) (Enabled guards) (Task.initially web order tasks s) trace c) :
    ∃ trace' c', Pool.Run Call.exec Pool.AnyStep ⟨s, fun i => Task.programs web (tasks i)⟩ trace' c' ∧
      ∀ i answers, c.threads i = .ret answers → c'.threads i = .ret answers := by
  rw [Task.initially_eq] at hrun
  obtain ⟨d, hd, rfl⟩ := (Pool.Run.mapResults_iff _).mp hrun
  obtain ⟨trace', d', hd', hrelated⟩ := exists_related web.crypto web.json web.binary64 order _ s hd
  refine ⟨trace', d'.mapResults fun i => Task.answers web (tasks i), ?_, fun i answers hi => ?_⟩
  · rw [Task.atomic_eq]
    exact (Pool.Run.mapResults_iff _).mpr ⟨d', hd', rfl⟩
  · obtain ⟨replies, hreplies, rfl⟩ := Pool.mapResults_ret hi
    have hreturned := (hrelated.returned (implements_perform order) hreplies).1
    simp only [Pool.mapResults]
    rw [hreturned]
    rfl

/-- What requests do in a schedule is what their calls do, step for step. -/
theorem requests_refine (trace : List (ι × Locking ι Mutex Access))
    (c : LockedThreads ι (List (Answer web.json))) :
    Pool.Run (exec guards) (Enabled guards) (Task.initially web order tasks s) trace c ↔
      ∃ d : LockedThreads ι (List (ServerReply web.json)),
        Pool.Run (exec guards) (Enabled guards) (Locked.initially web.crypto web.json web.binary64 order
          (fun i => Task.calls web (tasks i)) s) trace d ∧
        c = d.mapResults fun i => Task.answers web (tasks i) := by
  rw [Task.initially_eq]
  exact Pool.Run.mapResults_iff _

end Schedules

/-- Exact arithmetic, which the double operations may also be. -/
def Binary64.exact : Binary64 where
  fl := id
  ofInt64 := Int.cast
  toInt64 := Int64Arith.wrap
  rounds x := by simp
  ofInt64_exact _ _ := rfl
  toInt64_exact _ h := Int64Arith.wrap_of_fits h
  toInt64_fits := Int64Arith.fits_wrap

/-- `asDouble` on plain trees. -/
def JsonCpp.plainDouble : JsonValue ℚ → Except Thrown ℚ
  | .null => .ok 0
  | .boolean b => .ok b.toNat
  | .integer n => .ok n
  | .real x => .ok x
  | _ => .error (typeError "double")

/-- A server that can encrypt one payment of ten rupees. -/
def tenRupeesWeb : HttpServer :=
  ⟨.plain, JsonCpp.plainDouble, JsonValue.library, fun _ => none, .exact, tenRupeesCrypto, ""⟩

def requestOf (j : JsonValue ℚ) : HttpRequest .plain := ⟨some j, fun _ => ""⟩

def tenRupeesBody : JsonValue ℚ := .object
  [("senderVpa", .string "alice@demo"), ("receiverVpa", .string "bob@demo"), ("amount", .real 10),
    ("pin", .string "1234")]

/-- One client sends, flushes and asks for the listing, the other one makes mistakes. -/
def sendAndList : Bool → List (Task tenRupeesWeb.lib)
  | true => [.demoSend (requestOf tenRupeesBody) tenRupeesEnv, .meshGossip .listed,
      .meshFlush ⟨.listed, fun _ => { settledAt := fun _ => 1, claimNow := 1, freshNow := 1 }⟩,
      .listTransactions none]
  | false => [.demoSend (requestOf .null) tenRupeesEnv, .bridgeIngest (requestOf (.array [])) ingestAtZero,
      .listTransactions (some .prepare), .evictExpired 1]

def sendAndListStart : LockedThreads Bool (List (Answer JsonValue.library)) :=
  Task.initially tenRupeesWeb (fun _ _ => .sorted) sendAndList Server.initial

def sendAndListSchedule : List Bool :=
  List.replicate 16 true ++ List.replicate 50 false ++ List.replicate 300 true

theorem exists_sendAndList : ∃ trace, Pool.Run (exec guards) (Enabled guards) sendAndListStart trace
    (sendAndListSchedule.foldl (Pool.advance (exec guards)) sendAndListStart) := by
  have hadmissible : Pool.Admissible (exec guards) (Enabled guards) sendAndListSchedule
      sendAndListStart := by decide +kernel
  exact Pool.Run.of_schedule hadmissible

theorem sendAndList_returned (i : Bool) : ∃ answers,
    (sendAndListSchedule.foldl (Pool.advance (exec guards)) sendAndListStart).threads i = .ret answers := by
  have hreturned : ∀ i, ((sendAndListSchedule.foldl (Pool.advance (exec guards))
      sendAndListStart).threads i).returned? = true := by decide +kernel
  exact Program.returned?_eq_true.mp (hreturned i)

end UpiMesh
