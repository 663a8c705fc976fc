import EntityRpc.Tracker.Call
import Mathlib.Tactic.Common

namespace EntityRpc.Tracker

namespace Call

def payload? : Call → Option Payload
  | queue _ payload => some payload
  | attach _ | clearByUpdate _ | clearByCommand _ | forget _ => none

def isQueue (call : Call) : Bool := call.payload?.isSome

def isAttach : Call → Bool
  | attach _ => true
  | queue _ _ | clearByUpdate _ | clearByCommand _ | forget _ => false

def isClear : Call → Bool
  | clearByUpdate _ | clearByCommand _ => true
  | queue _ _ | attach _ | forget _ => false

def isForget : Call → Bool
  | forget _ => true
  | queue _ _ | attach _ | clearByUpdate _ | clearByCommand _ => false

theorem payload?_of_isForget {call : Call} (h : call.isForget) : call.payload? = none := by
  cases call with
  | forget entity => rfl
  | _ => contradiction

end Call

variable {O σ : Type}

/-- A call, what was answered to it, and what was reported on the way. -/
structure Exchange (O : Type) where
  call : Call
  result : Except Error (Reply O)
  events : List Event

section Runs

variable (perform : σ → Call → Outcome σ (Reply O))

/-- The state that calls leave when they are made one after the other. -/
def run (state : σ) (calls : List Call) : σ :=
  calls.foldl (fun state call ↦ (perform state call).state) state

def exchange (state : σ) (call : Call) : Exchange O :=
  let outcome := perform state call
  { call, result := outcome.result, events := outcome.events }

def transcript (state : σ) : List Call → List (Exchange O)
  | [] => []
  | call :: calls => exchange perform state call :: transcript (perform state call).state calls

@[simp] theorem run_nil (state : σ) : run perform state [] = state := rfl

@[simp] theorem run_cons (state : σ) (call : Call) (calls : List Call) :
    run perform state (call :: calls) = run perform (perform state call).state calls := rfl

@[simp] theorem run_concat (state : σ) (calls : List Call) (call : Call) :
    run perform state (calls ++ [call]) = (perform (run perform state calls) call).state := by
  simp only [run, List.foldl_append, List.foldl_cons, List.foldl_nil]

end Runs

variable [FieldStore O]

/-- What a call does to the slot of its entity. -/
def Slot.perform (slot : Slot) : Call → Outcome Slot (Reply O)
  | .queue entity payload => (slot.queue entity payload).map fun _ ↦ .queued
  | .attach entity => (slot.attach entity).map .attached
  | .clearByUpdate entity => (slot.clear entity Batch.clearUpdate).map .clearedByUpdate
  | .clearByCommand entity => (slot.clear entity Batch.clearRequest).map .clearedByCommand
  | .forget _ => slot.forget.map .forgotten

theorem perform_eq_visit (tracker : Tracker) (call : Call) :
    tracker.perform (O := O) call = tracker.visit call.entity fun slot ↦ slot.perform call := by
  cases call <;> rfl

theorem slot_perform_of_ne (tracker : Tracker) {call : Call} {entity : EntityId}
    (h : call.entity ≠ entity) :
    (tracker.perform (O := O) call).state.slot entity = tracker.slot entity := by
  rw [perform_eq_visit]
  exact slot_visit_of_ne tracker call.entity h _

theorem slot_perform_self (tracker : Tracker) (call : Call) :
    (tracker.perform (O := O) call).state.slot call.entity =
      ((tracker.slot call.entity).perform (O := O) call).state := by
  rw [perform_eq_visit, slot_visit_self]

theorem exchange_eq (tracker : Tracker) (call : Call) :
    exchange (O := O) perform tracker call =
      exchange Slot.perform (tracker.slot call.entity) call := by
  rw [exchange, perform_eq_visit]
  rfl

theorem slot_run (tracker : Tracker) (calls : List Call) (entity : EntityId) :
    (run (perform (O := O)) tracker calls).slot entity =
      run (Slot.perform (O := O)) (tracker.slot entity)
        (calls.filter fun call ↦ call.entity = entity) := by
  induction calls generalizing tracker with
  | nil => rfl
  | cons call calls ih =>
    rw [run_cons, ih]
    by_cases h : call.entity = entity
    · subst h
      rw [List.filter_cons_of_pos (by simp), run_cons, slot_perform_self]
    · rw [List.filter_cons_of_neg (by simpa using h), slot_perform_of_ne tracker h]

theorem filter_transcript (tracker : Tracker) (calls : List Call) (entity : EntityId) :
    ((transcript (perform (O := O)) tracker calls).filter
        fun exchange ↦ exchange.call.entity = entity) =
      transcript (Slot.perform (O := O)) (tracker.slot entity)
        (calls.filter fun call ↦ call.entity = entity) := by
  induction calls generalizing tracker with
  | nil => rfl
  | cons call calls ih =>
    have hcall : (exchange (perform (O := O)) tracker call).call = call := rfl
    by_cases h : call.entity = entity
    · subst h
      rw [transcript, List.filter_cons_of_pos (by simp [hcall]),
        List.filter_cons_of_pos (by simp), ih, slot_perform_self, exchange_eq]
      rfl
    · rw [transcript, List.filter_cons_of_neg (by simpa [hcall] using h),
        List.filter_cons_of_neg (by simpa using h), ih, slot_perform_of_ne tracker h]

end EntityRpc.Tracker
