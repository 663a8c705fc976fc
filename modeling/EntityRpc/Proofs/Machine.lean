import EntityRpc.Proofs.Cursor
import EntityRpc.Proofs.Height

namespace EntityRpc

namespace Machine

structure Activation where
  reader : Reader
  depth : UInt64
  object : Object := ∅

def Activation.collect (activation : Activation) (entry : Object) : Activation :=
  { activation with object := activation.object ++ entry }

/-- What comes next in a reading: its depth is checked, or an entry is read, or what follows the
tag of one. -/
inductive Control where
  | start
  | head
  | entry (tag : Tag)

/-- The innermost reading, and those that wait for the child it reads, each with the field that the
child is for. -/
structure State where
  top : Activation
  control : Control := .start
  callers : List (Activation × FieldId) := []

inductive Next where
  | running (state : State)
  | finished (reader : Reader) (result : Except DecodeError Object)

def proceed {α : Type} (call : Except Fault (Reading α))
    (next : α → Reader → Except Fault Next) : Except Fault Next := do
  let ⟨result, reader⟩ ← call
  match result with
  | .error e => return .finished reader (.error e)
  | .ok a => next a reader

def leave (reader : Reader) (object : Object) : List (Activation × FieldId) → Next
  | [] => .finished reader (.ok object)
  | (caller, field) :: callers => .running ⟨caller.collect (.ofChild field object), .head, callers⟩

def step (limits : Limits) : State → Except Fault Next
  | ⟨⟨reader, depth, object⟩, .start, callers⟩ =>
    if limits.maxDepth < depth then
      .ok (.finished reader (.error (.limit (.depth limits.maxDepth))))
    else .ok (.running ⟨⟨reader, depth, object⟩, .head, callers⟩)
  | ⟨⟨reader, depth, object⟩, .head, callers⟩ =>
    if reader.isDone then .ok (leave reader object callers)
    else
      proceed reader.readTag fun tag reader ↦
        .ok (.running ⟨⟨reader, depth, object⟩, .entry tag, callers⟩)
  | ⟨⟨reader, depth, object⟩, .entry ⟨field, .varint⟩, callers⟩ =>
    proceed reader.readVarint fun value reader ↦
      .ok (.running ⟨⟨reader, depth, object ++ .ofValue field (.varint value)⟩, .head, callers⟩)
  | ⟨⟨reader, depth, object⟩, .entry ⟨field, .bytes⟩, callers⟩ =>
    proceed (reader.readRun limits) fun data reader ↦
      .ok (.running ⟨⟨reader, depth, object ++ .ofValue field (.bytes data)⟩, .head, callers⟩)
  | ⟨⟨reader, depth, object⟩, .entry ⟨field, .object⟩, callers⟩ =>
    proceed (reader.readRun limits) fun body reader ↦ do
      let inner ← Word.add depth 1
      return .running ⟨⟨⟨body, 0⟩, inner, ∅⟩, .start, (⟨reader, depth, object⟩, field) :: callers⟩

def State.start (input : Bytes) : State where
  top := { reader := { buf := input }, depth := 0 }

inductive Run (limits : Limits) : ℕ → State → State → Prop
  | zero (state : State) : Run limits 0 state state
  | cons {n : ℕ} {first second last : State} :
      step limits first = .ok (.running second) → Run limits n second last →
      Run limits (n + 1) first last

def State.InBounds (state : State) : Prop :=
  state.top.reader.InBounds ∧ ∀ caller ∈ state.callers, caller.1.reader.InBounds

/-- What a step does to positions. A call that succeeds takes the position of the innermost reading
forward, and no other position changes. A child is shorter than what its parent had left. -/
inductive Advances (state : State) : Next → Prop
  | begins (hcontrol : state.control = .start) :
      Advances state (.running { state with control := .head })
  | reads {top : Activation} {control : Control} (hmoves : state.top.reader.Moves top.reader)
      (hlt : state.top.reader.pos < top.reader.pos) :
      Advances state (.running ⟨top, control, state.callers⟩)
  | calls {caller : Activation} {field : FieldId} {body : Bytes} {depth : UInt64}
      (hmoves : state.top.reader.Moves caller.reader)
      (hlt : state.top.reader.pos < caller.reader.pos)
      (hbody : body.length + caller.reader.rest.length < state.top.reader.rest.length) :
      Advances state
        (.running ⟨⟨⟨body, 0⟩, depth, ∅⟩, .start, (caller, field) :: state.callers⟩)
  | returns {caller : Activation} {field : FieldId} {callers : List (Activation × FieldId)}
      {object : Object} (hdone : state.top.reader.isDone)
      (hcallers : state.callers = (caller, field) :: callers) :
      Advances state (.running ⟨caller.collect object, .head, callers⟩)
  | finishes {reader : Reader} {result : Except DecodeError Object}
      (hmoves : state.top.reader.Moves reader) : Advances state (.finished reader result)

section Answer

variable (limits : Limits)

/-- What a reading is going to come to. -/
def Activation.answer (activation : Activation) : Control → Except DecodeError Object
  | .start | .head =>
    (Object.decodeAt limits activation.depth.toNat activation.reader.rest).map
      (activation.object ++ ·)
  | .entry tag =>
    (do
      let (frame, rest) ← Frame.decodeBody limits tag activation.reader.rest
      let entry ← Object.ofFrame limits activation.depth.toNat frame
      (Object.decodeAt limits activation.depth.toNat rest).map (entry ++ ·)).map
      (activation.object ++ ·)

/-- What the readings that wait make of a child. -/
def resume : List (Activation × FieldId) → Except DecodeError Object → Except DecodeError Object
  | [], result => result
  | (caller, field) :: callers, result =>
    resume callers (do
      let child ← result
      (caller.collect (.ofChild field child)).answer limits .head)

def State.answer (state : State) : Except DecodeError Object :=
  resume limits state.callers (state.top.answer limits state.control)

theorem resume_error (callers : List (Activation × FieldId)) (e : DecodeError) :
    resume limits callers (.error e) = .error e := by
  induction callers with
  | nil => rfl
  | cons caller callers ih => exact ih

theorem answer_fresh (depth : UInt64) (input : Bytes) :
    Activation.answer limits ⟨⟨input, 0⟩, depth, ∅⟩ .start =
      Object.decodeAt limits depth.toNat input := by
  change (Object.decodeAt limits depth.toNat input).map (∅ ++ ·) = _
  simp only [Object.empty_append]
  exact congrFun Except.map_id _

end Answer

def Control.cost : Control → ℕ
  | .start => 1
  | .head | .entry _ => 0

def unread : List (Activation × FieldId) → ℕ
  | [] => 0
  | (caller, _) :: callers => caller.reader.rest.length + unread callers

namespace State

def remaining (state : State) : ℕ := state.top.reader.rest.length + unread state.callers

/-- A bound on the steps that are still to come. A byte pays for the step that reads it, and for the
start and the return of a child. -/
def budget (state : State) : ℕ :=
  3 * state.remaining + state.callers.length + state.control.cost

end State

structure Activation.Valid (activation : Activation) (depth : ℕ) : Prop where
  depth_eq : activation.depth.toNat = depth
  inBounds : activation.reader.InBounds
  length_lt : activation.reader.buf.length < 2 ^ 63

def Suspended (limits : Limits) : List (Activation × FieldId) → Prop
  | [] => True
  | (caller, _) :: callers =>
    caller.Valid callers.length ∧ callers.length ≤ limits.maxDepth.toNat ∧
      Suspended limits callers

/-- A reading is as deep as the stack below it is high. Each level has cost a byte, which leaves
room for the depth in a word. -/
structure State.Valid (limits : Limits) (state : State) : Prop where
  top : state.top.Valid state.callers.length
  depth_le : state.control ≠ .start → state.callers.length ≤ limits.maxDepth.toNat
  suspended : Suspended limits state.callers
  room : state.callers.length + state.remaining < 2 ^ 63

/-- A step that goes on leaves the same answer to come and comes closer to it, and a step that ends
has it. -/
def Follows (limits : Limits) (state : State) : Next → Prop
  | .running next =>
    next.Valid limits ∧ next.answer limits = state.answer limits ∧ next.budget < state.budget
  | .finished _ result => result = state.answer limits

def Progresses (limits : Limits) (state : State) : Prop :=
  ∃ next, step limits state = .ok next ∧ Advances state next ∧ Follows limits state next

section Step

variable {limits : Limits} {state : State} {reader after : Reader} {depth : UInt64}
  {object : Object} {callers : List (Activation × FieldId)}

theorem Activation.Valid.moves {activation : Activation} {depth : ℕ} (h : activation.Valid depth)
    (hmoves : activation.reader.Moves after) (object : Object) :
    Activation.Valid ⟨after, activation.depth, object⟩ depth :=
  ⟨h.depth_eq, hmoves.inBounds, hmoves.buf_eq ▸ h.length_lt⟩

theorem State.Valid.top_depth_le (h : state.Valid limits) (hcontrol : state.control ≠ .start) :
    state.top.depth.toNat ≤ limits.maxDepth.toNat := by
  rw [h.top.depth_eq]
  exact h.depth_le hcontrol

theorem State.Valid.inBounds (h : state.Valid limits) : state.InBounds := by
  obtain ⟨top, control, callers⟩ := state
  refine ⟨h.top.inBounds, ?_⟩
  have hsuspended : Suspended limits callers := h.suspended
  clear h
  induction callers with
  | nil => exact nofun
  | cons entry callers ih =>
    obtain ⟨hcaller, -, hcallers⟩ := hsuspended
    exact List.forall_mem_cons.2 ⟨hcaller.inBounds, ih hcallers⟩

theorem exists_proceed {α : Type} {call : Except Fault (Reading α)}
    {expected : Except DecodeError (α × Bytes)} {next : α → Reader → Except Fault Next}
    {P : Next → Prop} (h : reader.Reads call expected)
    (herror : ∀ after e, reader.Moves after → expected = .error e →
      P (.finished after (.error e)))
    (hok : ∀ a after, reader.Moves after → expected = .ok (a, after.rest) →
      ∃ out, next a after = .ok out ∧ P out) :
    ∃ out, proceed call next = .ok out ∧ P out := by
  obtain ⟨⟨result, after⟩, rfl, hmoves, hexpected⟩ := h
  cases result with
  | error e => exact ⟨_, rfl, herror after e hmoves hexpected⟩
  | ok a => exact hok a after hmoves hexpected

theorem follows_finished {e : DecodeError} (hmoves : state.top.reader.Moves after)
    (hanswer : state.top.answer limits state.control = .error e) :
    Advances state (.finished after (.error e)) ∧
      Follows limits state (.finished after (.error e)) := by
  refine ⟨.finishes hmoves, ?_⟩
  rw [Follows, State.answer, hanswer, resume_error]

theorem follows_reads {control : Control} (h : state.Valid limits)
    (hstart : state.control ≠ .start) (hmoves : state.top.reader.Moves after)
    (hlt : after.rest.length < state.top.reader.rest.length) (hcost : control.cost = 0)
    (hanswer : Activation.answer limits ⟨after, state.top.depth, object⟩ control =
      state.top.answer limits state.control) :
    Advances state (.running ⟨⟨after, state.top.depth, object⟩, control, state.callers⟩) ∧
      Follows limits state
        (.running ⟨⟨after, state.top.depth, object⟩, control, state.callers⟩) := by
  have hroom : state.callers.length + (state.top.reader.rest.length + unread state.callers) <
    2 ^ 63 := h.room
  refine ⟨.reads hmoves (hmoves.pos_lt hlt), ⟨h.top.moves hmoves object,
    fun _ ↦ h.depth_le hstart, h.suspended, ?_⟩, ?_, ?_⟩
  · dsimp only [State.remaining]
    omega
  · rw [State.answer, State.answer, hanswer]
  · dsimp only [State.budget, State.remaining]
    omega

theorem progresses_start (h : State.Valid limits ⟨⟨reader, depth, object⟩, .start, callers⟩) :
    Progresses limits ⟨⟨reader, depth, object⟩, .start, callers⟩ := by
  rw [Progresses, step]
  by_cases hlt : limits.maxDepth < depth
  · rw [if_pos hlt]
    refine ⟨_, rfl, follows_finished (.refl h.top.inBounds) ?_⟩
    rw [Activation.answer, Object.decodeAt_of_lt (UInt64.lt_iff_toNat_lt.1 hlt)]
    rfl
  · rw [if_neg hlt]
    have hle : callers.length ≤ limits.maxDepth.toNat := by
      rw [← h.top.depth_eq]
      exact UInt64.le_iff_toNat_le.1 (UInt64.not_lt.1 hlt)
    exact ⟨_, rfl, .begins rfl, ⟨h.top, fun _ ↦ hle, h.suspended, h.room⟩, rfl,
      Nat.lt_succ_self _⟩

theorem progresses_done (h : State.Valid limits ⟨⟨reader, depth, object⟩, .head, callers⟩)
    (hdone : reader.isDone) : Progresses limits ⟨⟨reader, depth, object⟩, .head, callers⟩ := by
  have hrest : reader.rest = [] := (Reader.isDone_iff h.top.length_lt).1 hdone
  have hanswer : Activation.answer limits ⟨reader, depth, object⟩ .head = .ok object := by
    rw [Activation.answer, hrest, Object.decodeAt_nil (h.top_depth_le nofun)]
    exact congrArg Except.ok (Object.append_empty object)
  rw [Progresses, step, if_pos hdone]
  cases callers with
  | nil =>
    refine ⟨.finished reader (.ok object), rfl, .finishes (.refl h.top.inBounds), ?_⟩
    rw [Follows, State.answer, hanswer]
    rfl
  | cons entry callers =>
    obtain ⟨caller, field⟩ := entry
    obtain ⟨hcaller, hle, hsuspended⟩ := h.suspended
    have hroom := h.room
    have hzero : reader.rest.length = 0 := by rw [hrest, List.length_nil]
    dsimp only [State.remaining, unread, List.length_cons] at hroom
    refine ⟨_, rfl, .returns hdone rfl, ⟨⟨hcaller.depth_eq, hcaller.inBounds, hcaller.length_lt⟩,
      fun _ ↦ hle, hsuspended, ?_⟩, ?_, ?_⟩
    · dsimp only [State.remaining, Activation.collect]
      omega
    · rw [State.answer, State.answer, hanswer]
      rfl
    · dsimp only [State.budget, State.remaining, unread, List.length_cons, Activation.collect,
        Control.cost]
      omega

theorem answer_head (hdepth : depth.toNat ≤ limits.maxDepth.toNat) (hne : reader.rest ≠ []) :
    Activation.answer limits ⟨reader, depth, object⟩ .head =
      (do
        let (tag, rest) ← Tag.decode reader.rest
        let (frame, rest) ← Frame.decodeBody limits tag rest
        let entry ← Object.ofFrame limits depth.toNat frame
        (Object.decodeAt limits depth.toNat rest).map (entry ++ ·)).map (object ++ ·) := by
  rw [Activation.answer, Object.decodeAt_of_ne_nil hdepth hne, Frame.decode_eq_bind]
  cases Tag.decode reader.rest <;> rfl

theorem progresses_head (h : State.Valid limits ⟨⟨reader, depth, object⟩, .head, callers⟩)
    (hdone : ¬ reader.isDone) : Progresses limits ⟨⟨reader, depth, object⟩, .head, callers⟩ := by
  have hne : reader.rest ≠ [] := (Reader.isDone_iff h.top.length_lt).not.1 hdone
  have hanswer := @answer_head limits reader depth object (h.top_depth_le nofun) hne
  rw [Progresses, step, if_neg hdone]
  apply exists_proceed (Reader.reads_readTag h.top.length_lt h.top.inBounds)
  · intro after e hmoves hread
    exact follows_finished hmoves (by rw [hanswer, hread]; rfl)
  · intro tag after hmoves hread
    have hlt : after.rest.length < reader.rest.length := Tag.decode_length_lt hread
    exact ⟨_, rfl, follows_reads h nofun hmoves hlt rfl (by rw [hanswer, hread]; rfl)⟩

theorem exists_proceed_entry {α : Type} {tag : Tag} {call : Except Fault (Reading α)}
    {expected : Except DecodeError (α × Bytes)} {entry : α → Object}
    (h : State.Valid limits ⟨⟨reader, depth, object⟩, .entry tag, callers⟩)
    (hcall : reader.Reads call expected)
    (hlt : ∀ a rest, expected = .ok (a, rest) → rest.length < reader.rest.length)
    (hanswer : Activation.answer limits ⟨reader, depth, object⟩ (.entry tag) =
      (do
        let (a, rest) ← expected
        (Object.decodeAt limits depth.toNat rest).map (entry a ++ ·)).map (object ++ ·)) :
    ∃ next,
      (proceed call fun a after ↦
        .ok (.running ⟨⟨after, depth, object ++ entry a⟩, .head, callers⟩)) = .ok next ∧
      Advances ⟨⟨reader, depth, object⟩, .entry tag, callers⟩ next ∧
      Follows limits ⟨⟨reader, depth, object⟩, .entry tag, callers⟩ next := by
  apply exists_proceed hcall
  · intro after e hmoves hread
    exact follows_finished hmoves (by rw [hanswer, hread]; rfl)
  · intro a after hmoves hread
    refine ⟨_, rfl, follows_reads h nofun hmoves (hlt a after.rest hread) rfl ?_⟩
    rw [hanswer, hread]
    exact (Object.map_append_map_append _ _ _).symm

theorem progresses_varint {field : FieldId}
    (h : State.Valid limits ⟨⟨reader, depth, object⟩, .entry ⟨field, .varint⟩, callers⟩) :
    Progresses limits ⟨⟨reader, depth, object⟩, .entry ⟨field, .varint⟩, callers⟩ := by
  rw [Progresses, step]
  refine exists_proceed_entry h (Reader.reads_readVarint h.top.length_lt h.top.inBounds)
    (fun value rest ↦ Varint.decode_length_lt) ?_
  rw [Activation.answer, Frame.decodeBody]
  cases Varint.decode reader.rest <;> rfl

theorem progresses_bytes {field : FieldId}
    (h : State.Valid limits ⟨⟨reader, depth, object⟩, .entry ⟨field, .bytes⟩, callers⟩) :
    Progresses limits ⟨⟨reader, depth, object⟩, .entry ⟨field, .bytes⟩, callers⟩ := by
  have hlt (data rest : Bytes) (hread : Frame.decodeRun limits reader.rest = .ok (data, rest)) :
      rest.length < reader.rest.length :=
    lt_of_le_of_lt (Nat.le_add_left _ _) (Frame.decodeRun_length_lt hread)
  rw [Progresses, step]
  refine exists_proceed_entry h (Reader.reads_readRun limits h.top.length_lt h.top.inBounds)
    hlt ?_
  rw [Activation.answer, Frame.decodeBody]
  cases Frame.decodeRun limits reader.rest <;> rfl

theorem answer_child {field : FieldId} {inner : UInt64} {body : Bytes}
    (hinner : inner.toNat = depth.toNat + 1)
    (hread : Frame.decodeRun limits reader.rest = .ok (body, after.rest)) :
    (do
      let child ← Activation.answer limits ⟨⟨body, 0⟩, inner, ∅⟩ .start
      (Activation.collect ⟨after, depth, object⟩ (.ofChild field child)).answer limits .head) =
      Activation.answer limits ⟨reader, depth, object⟩ (.entry ⟨field, .object⟩) := by
  rw [answer_fresh, hinner]
  simp only [Activation.answer, Frame.decodeBody, hread]
  change _ = ((do
    let entry ← (Object.decodeAt limits (depth.toNat + 1) body).map (Object.ofChild field)
    (Object.decodeAt limits depth.toNat after.rest).map (entry ++ ·)).map (object ++ ·))
  cases Object.decodeAt limits (depth.toNat + 1) body with
  | error e => rfl
  | ok child => exact (Object.map_append_map_append _ _ _).symm

theorem progresses_object {field : FieldId}
    (h : State.Valid limits ⟨⟨reader, depth, object⟩, .entry ⟨field, .object⟩, callers⟩) :
    Progresses limits ⟨⟨reader, depth, object⟩, .entry ⟨field, .object⟩, callers⟩ := by
  rw [Progresses, step]
  apply exists_proceed (Reader.reads_readRun limits h.top.length_lt h.top.inBounds)
  · intro after e hmoves hread
    refine follows_finished hmoves ?_
    simp only [Activation.answer, Frame.decodeBody, hread]
    rfl
  · intro body after hmoves hread
    have hlt : body.length + after.rest.length < reader.rest.length :=
      Frame.decodeRun_length_lt hread
    have hroom : callers.length + (reader.rest.length + unread callers) < 2 ^ 63 := h.room
    have hdepth : depth.toNat = callers.length := h.top.depth_eq
    have hone : (1 : UInt64).toNat = 1 := rfl
    -- The limit on depth may be as large as a word, so it is the stack that bounds the depth here.
    obtain ⟨inner, hadd, hinner⟩ := Word.exists_add (a := depth) (b := 1) (by omega)
    have hpos : reader.pos < after.pos :=
      hmoves.pos_lt (lt_of_le_of_lt (Nat.le_add_left _ _) hlt)
    have hchild : Activation.Valid ⟨⟨body, 0⟩, inner, ∅⟩ (callers.length + 1) :=
      ⟨by rw [hinner, hdepth, hone], Nat.zero_le _, by dsimp only; omega⟩
    have hbody : (Reader.mk body 0).rest = body := rfl
    refine ⟨.running ⟨⟨⟨body, 0⟩, inner, ∅⟩, .start, (⟨after, depth, object⟩, field) :: callers⟩,
      by rw [hadd]; rfl, .calls hmoves hpos hlt, ⟨hchild, nofun,
        ⟨h.top.moves hmoves object, h.depth_le nofun, h.suspended⟩, ?_⟩, ?_, ?_⟩
    · dsimp only [State.remaining, unread, List.length_cons]
      rw [hbody]
      omega
    · exact congrArg (resume limits callers) (answer_child hinner hread)
    · dsimp only [State.budget, State.remaining, unread, List.length_cons, Control.cost]
      rw [hbody]
      omega

theorem progresses_of_valid (h : state.Valid limits) : Progresses limits state := by
  obtain ⟨⟨reader, depth, object⟩, control, callers⟩ := state
  cases control with
  | start => exact progresses_start h
  | head =>
    by_cases hdone : reader.isDone
    · exact progresses_done h hdone
    · exact progresses_head h hdone
  | entry tag =>
    obtain ⟨field, wireType⟩ := tag
    cases wireType with
    | varint => exact progresses_varint h
    | bytes => exact progresses_bytes h
    | object => exact progresses_object h

theorem valid_start {input : Bytes} (h : input.length < 2 ^ 63) :
    (State.start input).Valid limits where
  top := ⟨rfl, Nat.zero_le _, h⟩
  depth_le := fun hstart ↦ absurd rfl hstart
  suspended := trivial
  room := by
    change 0 + (input.length + 0) < 2 ^ 63
    omega

theorem answer_start (limits : Limits) (input : Bytes) :
    (State.start input).answer limits = Object.decode limits input :=
  answer_fresh limits 0 input

theorem Run.valid {n : ℕ} {first last : State} (hrun : Run limits n first last)
    (h : first.Valid limits) : last.Valid limits := by
  induction hrun with
  | zero state => exact h
  | cons hstep _ ih =>
    obtain ⟨next, hnext, -, hfollows⟩ := progresses_of_valid h
    cases hstep.symm.trans hnext
    exact ih hfollows.1

theorem exists_run_finished (h : state.Valid limits) :
    ∃ n ≤ state.budget, ∃ last reader, Run limits n state last ∧
      step limits last = .ok (.finished reader (state.answer limits)) := by
  induction hbudget : state.budget using Nat.strong_induction_on generalizing state with
  | h budget ih =>
    subst hbudget
    obtain ⟨next, hstep, -, hfollows⟩ := progresses_of_valid h
    cases next with
    | finished reader result =>
      replace hfollows : result = state.answer limits := hfollows
      subst hfollows
      exact ⟨0, Nat.zero_le _, state, reader, .zero state, hstep⟩
    | running second =>
      obtain ⟨hvalid, hanswer, hlt⟩ := hfollows
      obtain ⟨n, hn, last, reader, hrun, hlast⟩ := ih second.budget hlt hvalid rfl
      rw [hanswer] at hlast
      exact ⟨n + 1, Nat.succ_le_of_lt (Nat.lt_of_le_of_lt hn hlt), last, reader,
        .cons hstep hrun, hlast⟩

end Step

/-- On any input whose length a position can hold, no step faults and neither does a pass of the
loop that reads a number, and positions stay within their buffers. What goes on has moved on, so the
steps come to an end, and they end with what the input decodes to. An object is no higher than the
limits and the length of the input allow. -/
theorem steps_decode_without_fault (limits : Limits) (input : Bytes)
    (h : input.length < 2 ^ 63) :
    (∀ n state, Run limits n (.start input) state →
      state.InBounds ∧ ∃ next, step limits state = .ok next ∧ Advances state next) ∧
    (∀ reader : Reader, reader.buf.length < 2 ^ 63 → reader.InBounds →
      ∀ i < Varint.maxBytes, ∀ value,
        ∃ pass, reader.readGroup i value = .ok pass ∧ pass.Advances reader) ∧
    (∃ n ≤ 3 * input.length + 1, ∃ last reader, Run limits n (.start input) last ∧
      step limits last = .ok (.finished reader (Object.decode limits input))) ∧
    ∀ object, Object.decode limits input = .ok object →
      object.height ≤ input.length / 2 ∧ object.height ≤ limits.maxDepth.toNat := by
  have hstart : (State.start input).Valid limits := valid_start h
  refine ⟨?_, ?_, ?_, fun object ↦ Object.height_le_of_decode⟩
  · intro n state hrun
    have hvalid : state.Valid limits := hrun.valid hstart
    obtain ⟨next, hstep, hadvances, -⟩ := progresses_of_valid hvalid
    exact ⟨hvalid.inBounds, next, hstep, hadvances⟩
  · intro reader hlen hin i hi value
    exact Reader.exists_pass hlen hin (Nat.le_of_lt_succ hi) value
  · rw [← answer_start]
    exact exists_run_finished hstart

theorem steps_decode_without_fault_nested :
    let limits : Limits := ⟨2, 2⟩
    let input : Bytes := [19, 2, 19, 0]
    let object : Object := ⟨[], [(2, ⟨[], [(2, ⟨[], []⟩)]⟩)]⟩
    input.length < 2 ^ 63 ∧ Object.decode limits input = .ok object ∧
    (∃ n ≤ 13, ∃ last reader, Run limits n (.start input) last ∧
      step limits last = .ok (.finished reader (.ok object))) ∧
    (object.height = 2 ∧ object.height ≤ input.length / 2 ∧
      object.height ≤ limits.maxDepth.toNat) := by
  intro limits input object
  have hlength : input.length < 2 ^ 63 := by decide
  have hdecode : Object.decode limits input = .ok object := by cbv
  have hheight : object.height = 2 := by cbv
  obtain ⟨-, -, hends, hbounds⟩ := steps_decode_without_fault limits input hlength
  rw [hdecode] at hends
  exact ⟨hlength, hdecode, hends, hheight, hbounds object hdecode⟩

end Machine

end EntityRpc
