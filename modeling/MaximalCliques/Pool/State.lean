/-!
# A pool of workers between two bounded queues

A producer hands out jobs, workers turn each job into results, and the caller receives the results.
Jobs and results travel through two queues of the same capacity; a party that sends waits for room.
A queue closes when everyone who may send into it is done: the workers return once the producer has
returned and no job is left, the caller once it has let go of its own ends, all workers have
returned and no result is left.

`step` performs one action of one party, if it is enabled. All interleavings of the parties are the
sequences of steps.
-/

namespace MaximalCliques
namespace Pool

inductive Producer (J : Type) where
  /-- Still to hand out these jobs. -/
  | active (pending : List J)
  | returned

inductive Worker (R : Type) where
  /-- Still to send these results of the current job; with none left, ready for the next job. -/
  | active (pending : List R)
  | returned

inductive Caller where
  /-- The caller still holds an end of each queue, as it did to start the others. -/
  | starting
  | receiving
  | returned
  deriving DecidableEq

structure State (J R : Type) where
  producer : Producer J
  /-- The queue of jobs, the next one first. -/
  jobs : List J
  workers : Array (Worker R)
  /-- The queue of results, the next one first. -/
  results : List R
  caller : Caller
  /-- What the caller has received, in order. -/
  received : List R

inductive Action where
  /-- The producer sends its next job. -/
  | handOut
  | producerReturns
  /-- A worker takes the next job. -/
  | take (worker : Nat)
  /-- A worker sends its next result. -/
  | send (worker : Nat)
  | workerReturns (worker : Nat)
  /-- The caller lets go of its ends of the queues. -/
  | release
  /-- The caller receives the next result. -/
  | receive
  | callerReturns
  deriving DecidableEq

variable {J R : Type}

def State.start (jobs : List J) (workers : Nat) : State J R where
  producer := .active jobs
  jobs := []
  workers := Array.replicate workers (.active [])
  results := []
  caller := .starting
  received := []

def Worker.hasReturned : Worker R → Bool
  | active _ => false
  | returned => true

def Producer.hasReturned : Producer J → Bool
  | active _ => false
  | returned => true

def State.isFinal (s : State J R) : Bool :=
  s.producer.hasReturned && s.workers.all Worker.hasReturned && s.caller == .returned

/-- The state after an action, if the action is enabled. A job `j` has the results `work j`. -/
def step (work : J → List R) (capacity : Nat) (s : State J R) : Action → Option (State J R)
  | .handOut =>
    match s.producer with
    | .active (j :: js) =>
      if s.jobs.length < capacity then
        some { s with producer := .active js, jobs := s.jobs ++ [j] }
      else none
    | _ => none
  | .producerReturns =>
    match s.producer with
    | .active [] => some { s with producer := .returned }
    | _ => none
  | .take i =>
    match s.workers[i]?, s.jobs with
    | some (.active []), j :: js =>
      some { s with jobs := js, workers := s.workers.setIfInBounds i (.active (work j)) }
    | _, _ => none
  | .send i =>
    match s.workers[i]? with
    | some (.active (r :: rs)) =>
      if s.results.length < capacity then
        some
          { s with
            workers := s.workers.setIfInBounds i (.active rs)
            results := s.results ++ [r] }
      else none
    | _ => none
  | .workerReturns i =>
    match s.workers[i]?, s.jobs, s.producer with
    | some (.active []), [], .returned =>
      some { s with workers := s.workers.setIfInBounds i .returned }
    | _, _, _ => none
  | .release =>
    match s.caller with
    | .starting => some { s with caller := .receiving }
    | _ => none
  | .receive =>
    match s.caller, s.results with
    | .receiving, r :: rs => some { s with results := rs, received := s.received ++ [r] }
    | _, _ => none
  | .callerReturns =>
    match s.caller, s.results with
    | .receiving, [] =>
      if s.workers.all Worker.hasReturned then some { s with caller := .returned } else none
    | _, _ => none

/-- Every action that some state of `n` workers enables. -/
def actions (n : Nat) : List Action :=
  [.receive, .release, .producerReturns, .callerReturns, .handOut] ++
    (List.range n).flatMap fun i => [.send i, .workerReturns i, .take i]

end Pool
end MaximalCliques
