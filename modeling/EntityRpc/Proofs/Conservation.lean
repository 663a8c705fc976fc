import EntityRpc.Proofs.Batch
import EntityRpc.Proofs.Transcript

namespace EntityRpc.Tracker

open FieldStore LawfulFieldStore

variable {O : Type}

namespace Exchange

variable (exchange : Exchange O)

def queued? : Option Payload := if exchange.result.isOk then exchange.call.payload? else none

def attaches : Bool := exchange.call.isAttach && exchange.result.isOk

def clears : Bool := exchange.call.isClear && exchange.result.isOk

def block? : Option (Block.Data O) :=
  match exchange.result with
  | .ok (.attached data) => some data
  | _ => none

def returned? : Option Batch :=
  match exchange.result with
  | .ok (.forgotten batch) => batch
  | _ => none

end Exchange

/-- What passed on an entity from one time it was forgotten to the next, and the batch that was
there at the end. -/
structure Incarnation (O : Type) where
  exchanges : List (Exchange O)
  remainder : Option Batch

/-- Cuts the exchanges on an entity each time it was forgotten. Those in `current` come before
them, and `left` is the batch that is held in the end. -/
def incarnations (left : Option Batch) (current : List (Exchange O)) :
    List (Exchange O) → List (Incarnation O)
  | [] => [⟨current, left⟩]
  | exchange :: later =>
    if exchange.call.isForget then ⟨current, exchange.returned?⟩ :: incarnations left [] later
    else incarnations left (current ++ [exchange]) later

/-- The calls that an incarnation comes to: those in the block that was handed out, or else those
that were there at the end. -/
def Incarnation.contents [FieldStore O] (life : Incarnation O) : Except Batch.ReadError Batch :=
  match life.exchanges.findSome? Exchange.block? with
  | some data => Batch.ofDataStrict data
  | none => .ok (life.remainder.getD ∅)

/-- An entity is attached once and cleared once at most, it is attached before it is cleared, and
no call is taken for it after it was attached. -/
structure Orderly (exchanges : List (Exchange O)) : Prop where
  attached_le_one : exchanges.countP Exchange.attaches ≤ 1
  cleared_le_one : exchanges.countP Exchange.clears ≤ 1
  attached_of_clears : ∀ before exchange, before ++ [exchange] <+: exchanges →
    exchange.clears → ∃ earlier ∈ before, earlier.attaches
  not_attached_of_queued : ∀ before exchange, before ++ [exchange] <+: exchanges →
    exchange.queued?.isSome → ∀ earlier ∈ before, ¬ earlier.attaches

theorem orderly_nil : Orderly ([] : List (Exchange O)) := by
  refine ⟨Nat.zero_le 1, Nat.zero_le 1, ?_, ?_⟩
  · intro before exchange hbefore
    simp at hbefore
  · intro before exchange hbefore
    simp at hbefore

structure Tally (O : Type) where
  rpcs : List Payload := []
  blocks : List (Block.Data O) := []
  attached : ℕ := 0
  cleared : ℕ := 0

def tally (exchanges : List (Exchange O)) : Tally O where
  rpcs := exchanges.filterMap Exchange.queued?
  blocks := exchanges.filterMap Exchange.block?
  attached := exchanges.countP Exchange.attaches
  cleared := exchanges.countP Exchange.clears

def Tally.add (tally : Tally O) (exchange : Exchange O) : Tally O where
  rpcs := exchange.queued?.elim tally.rpcs fun payload ↦ tally.rpcs ++ [payload]
  blocks := exchange.block?.elim tally.blocks fun data ↦ tally.blocks ++ [data]
  attached := bif exchange.attaches then tally.attached + 1 else tally.attached
  cleared := bif exchange.clears then tally.cleared + 1 else tally.cleared

theorem filterMap_concat {α β : Type} (f : α → Option β) (l : List α) (a : α) :
    (l ++ [a]).filterMap f = (f a).elim (l.filterMap f) fun b ↦ l.filterMap f ++ [b] := by
  rw [List.filterMap_append]
  cases h : f a <;> simp [h]

theorem countP_concat {α : Type} (p : α → Bool) (l : List α) (a : α) :
    (l ++ [a]).countP p = bif p a then l.countP p + 1 else l.countP p := by
  rw [List.countP_append]
  cases h : p a <;> simp [h]

theorem tally_concat (exchanges : List (Exchange O)) (exchange : Exchange O) :
    tally (exchanges ++ [exchange]) = (tally exchanges).add exchange := by
  simp only [tally, Tally.add, filterMap_concat, countP_concat]

theorem flatMap_incarnations (left : Option Batch) (current exchanges : List (Exchange O)) :
    ((incarnations left current exchanges).flatMap fun life ↦
        life.exchanges.filterMap Exchange.queued?) =
      current.filterMap Exchange.queued? ++ exchanges.filterMap Exchange.queued? := by
  induction exchanges generalizing current with
  | nil => simp [incarnations]
  | cons exchange later ih =>
    cases hforget : exchange.call.isForget with
    | true =>
      have hqueued : exchange.queued? = none := by
        simp [Exchange.queued?, Call.payload?_of_isForget hforget]
      rw [incarnations, if_pos hforget, List.flatMap_cons, ih, List.filterMap_cons_none hqueued]
      rfl
    | false =>
      rw [incarnations, hforget, if_neg Bool.false_ne_true, ih, List.filterMap_append,
        List.append_assoc, ← List.filterMap_append]
      rfl

variable [FieldStore O]

/-- What the slot of an entity says of the exchanges since the entity was last forgotten. -/
def Slot.Accounts (slot : Slot) (tally : Tally O) : Prop :=
  match slot with
  | none => tally = {}
  | some ⟨.pending, batch⟩ => tally = { rpcs := batch.rpcs }
  | some ⟨.attached, batch⟩ =>
    tally = { rpcs := batch.rpcs, blocks := [batch.toData.value], attached := 1 }
  | some ⟨.cleared, _⟩ => ∃ batch : Batch,
    tally = { rpcs := batch.rpcs, blocks := [batch.toData.value], attached := 1, cleared := 1 }

namespace Slot.Accounts

variable {slot : Slot} {tally : Tally O} {call : Call}

theorem add (h : slot.Accounts tally) (hcall : call.isForget = false) :
    (slot.perform (O := O) call).state.Accounts (tally.add (exchange Slot.perform slot call)) := by
  match slot, h with
  | none, h =>
    obtain rfl : tally = {} := h
    cases call with
    | forget entity => contradiction
    | _ => rfl
  | some ⟨.pending, batch⟩, h =>
    obtain rfl : tally = { rpcs := batch.rpcs } := h
    cases call with
    | forget entity => contradiction
    | _ => rfl
  | some ⟨.attached, batch⟩, h =>
    obtain rfl : tally = { rpcs := batch.rpcs, blocks := [batch.toData.value], attached := 1 } := h
    cases call with
    | forget entity => contradiction
    | queue | attach => rfl
    | clearByUpdate | clearByCommand => exact ⟨batch, rfl⟩
  | some ⟨.cleared, _⟩, ⟨batch, h⟩ =>
    subst h
    cases call with
    | forget entity => contradiction
    | _ => exact ⟨batch, rfl⟩

theorem counts_le_one (h : slot.Accounts tally) : tally.attached ≤ 1 ∧ tally.cleared ≤ 1 := by
  match slot, h with
  | none, h | some ⟨.pending, _⟩, h | some ⟨.attached, _⟩, h | some ⟨.cleared, _⟩, ⟨_, h⟩ =>
    rw [h]
    simp

theorem attached_of_clears (h : slot.Accounts tally)
    (hclears : (exchange (O := O) Slot.perform slot call).clears) : tally.attached = 1 := by
  match slot, h with
  | some ⟨.attached, _⟩, h => rw [h]
  | none, _ | some ⟨.pending, _⟩, _ | some ⟨.cleared, _⟩, _ => cases call <;> contradiction

theorem attached_of_queued (h : slot.Accounts tally)
    (hqueued : (exchange (O := O) Slot.perform slot call).queued?.isSome) : tally.attached = 0 := by
  match slot, h with
  | none, h | some ⟨.pending, _⟩, h => rw [h]
  | some ⟨.attached, _⟩, _ | some ⟨.cleared, _⟩, _ => cases call <;> contradiction

end Slot.Accounts

theorem accounts_none : Slot.Accounts none (tally ([] : List (Exchange O))) := rfl

theorem forall_concat_prefix {α : Type} {P : List α → α → Prop} {l : List α} {last : α}
    (h : ∀ before a, before ++ [a] <+: l → P before a) (hlast : P l last) :
    ∀ before a, before ++ [a] <+: l ++ [last] → P before a := by
  intro before a hbefore
  rcases List.prefix_concat_iff.1 hbefore with heq | hbefore
  · obtain ⟨rfl, rfl⟩ : before = l ∧ a = last := by simpa using heq
    exact hlast
  · exact h before a hbefore

theorem Orderly.concat {slot : Slot} {exchanges : List (Exchange O)} {call : Call}
    (h : Orderly exchanges) (hacc : slot.Accounts (tally exchanges))
    (hcall : call.isForget = false) :
    Orderly (exchanges ++ [exchange Slot.perform slot call]) := by
  have hnext := hacc.add hcall
  rw [← tally_concat] at hnext
  refine ⟨hnext.counts_le_one.1, hnext.counts_le_one.2, ?_, ?_⟩
  · refine forall_concat_prefix h.attached_of_clears ?_
    intro hclears
    have hone : exchanges.countP Exchange.attaches = 1 := hacc.attached_of_clears hclears
    exact List.countP_pos_iff.1 (hone ▸ Nat.one_pos)
  · refine forall_concat_prefix h.not_attached_of_queued ?_
    intro hqueued
    exact List.countP_eq_zero.1 (hacc.attached_of_queued hqueued)

section Contents

variable [LawfulFieldStore O]

/-- Walking the children under a field visits all of them, if there are no more than `bound`. -/
def WalksUpTo (O : Type) [FieldStore O] [LawfulFieldStore O] (bound : ℕ) : Prop :=
  ∀ (object : O) (field : FieldId), (held object field).length ≤ bound →
    children object field = held object field

variable {bound : ℕ}

theorem ofDataStrict_toData (hwalk : WalksUpTo O bound) {batch : Batch} (h : batch.size ≤ bound) :
    Batch.ofDataStrict (batch.toData (O := O)).value = .ok batch := by
  refine (Batch.ofData_toData batch (hwalk _ _ ?_)).1
  rw [Batch.length_held_fields]
  exact h

theorem contents_eq {slot : Slot} {exchanges : List (Exchange O)} (hwalk : WalksUpTo O bound)
    (hlen : exchanges.length ≤ bound) (h : slot.Accounts (tally exchanges)) :
    Incarnation.contents ⟨exchanges, slot.map Record.batch⟩ =
      .ok ⟨exchanges.filterMap Exchange.queued?⟩ := by
  have hsize : (exchanges.filterMap Exchange.queued?).length ≤ bound :=
    Nat.le_trans (List.length_filterMap_le _ _) hlen
  have hrpcs : (tally exchanges).rpcs = exchanges.filterMap Exchange.queued? := rfl
  have hblocks : exchanges.findSome? Exchange.block? = (tally exchanges).blocks.head? :=
    List.head?_filterMap.symm
  rw [Incarnation.contents, hblocks, ← hrpcs]
  rw [← hrpcs] at hsize
  match slot, h with
  | none, h | some ⟨.pending, _⟩, h =>
    rw [h]
    rfl
  | some ⟨.attached, _⟩, h | some ⟨.cleared, _⟩, ⟨_, h⟩ =>
    -- A cleared slot holds nothing, but the block that was handed out still does.
    rw [h] at hsize ⊢
    exact ofDataStrict_toData hwalk hsize

theorem settled_of_mem_incarnations (hwalk : WalksUpTo O bound) (calls : List Call) {slot : Slot}
    {current : List (Exchange O)} (hlen : current.length + calls.length ≤ bound)
    (hord : Orderly current) (hacc : slot.Accounts (tally current)) :
    ∀ life ∈ incarnations ((run (Slot.perform (O := O)) slot calls).map Record.batch) current
        (transcript Slot.perform slot calls),
      Orderly life.exchanges ∧
        life.contents = .ok ⟨life.exchanges.filterMap Exchange.queued?⟩ := by
  -- The invariant is that the slot accounts for the incarnation that is still open.
  induction calls generalizing slot current with
  | nil =>
    intro life hlife
    obtain rfl := List.mem_singleton.1 hlife
    exact ⟨hord, contents_eq hwalk hlen hacc⟩
  | cons call calls ih =>
    rw [List.length_cons] at hlen
    intro life hlife
    cases hcall : call.isForget with
    | true =>
      have hforget : (exchange (O := O) Slot.perform slot call).call.isForget = true := hcall
      rw [transcript, incarnations, if_pos hforget] at hlife
      have hrest : ([] : List (Exchange O)).length + calls.length ≤ bound := by
        rw [List.length_nil]
        omega
      cases call with
      | forget entity =>
        rcases List.mem_cons.1 hlife with rfl | hlife
        · exact ⟨hord, contents_eq hwalk (by omega) hacc⟩
        · exact ih hrest orderly_nil accounts_none life hlife
      | _ => contradiction
    | false =>
      have hforget : (exchange (O := O) Slot.perform slot call).call.isForget = false := hcall
      have hnext := hacc.add hcall
      rw [← tally_concat] at hnext
      rw [transcript, incarnations, hforget] at hlife
      refine ih ?_ (hord.concat hacc hcall) hnext life hlife
      rw [List.length_append, List.length_singleton]
      omega

/-- In each incarnation of an entity it is attached and cleared once at most and in this order, and
no call is taken for it once it is attached. The calls that were taken for it in a run, in their
order, are those that were handed out for its creations, given back when it was forgotten, or are
still held. -/
theorem taken_eq_flatMap_contents (calls : List Call) (entity : EntityId)
    (hwalk : WalksUpTo O calls.length) :
    let exchanges := (transcript (perform (O := O)) ∅ calls).filter
      fun exchange ↦ exchange.call.entity = entity
    let lives := incarnations ((run (perform (O := O)) ∅ calls).batch? entity) [] exchanges
    (∀ life ∈ lives, Orderly life.exchanges) ∧
      ∃ batches, lives.mapM Incarnation.contents = .ok batches ∧
        exchanges.filterMap Exchange.queued? = batches.flatMap Batch.rpcs := by
  intro exchanges lives
  have hlives : lives = incarnations
      ((run (Slot.perform (O := O)) none (calls.filter fun call ↦ call.entity = entity)).map
        Record.batch) [] exchanges := by
    simp only [lives, batch?, slot_run, slot_empty]
  have hexchanges : exchanges =
      transcript Slot.perform none (calls.filter fun call ↦ call.entity = entity) := by
    simp only [exchanges, filter_transcript, slot_empty]
  have hlen : ([] : List (Exchange O)).length +
      (calls.filter fun call ↦ call.entity = entity).length ≤ calls.length := by
    rw [List.length_nil, Nat.zero_add]
    exact List.length_filter_le _ _
  have hsettled := settled_of_mem_incarnations hwalk _ hlen orderly_nil accounts_none
  rw [← hexchanges, ← hlives] at hsettled
  refine ⟨fun life hlife ↦ (hsettled life hlife).1, _,
    mapM_eq_ok fun life hlife ↦ (hsettled life hlife).2, ?_⟩
  rw [List.flatMap_map, flatMap_incarnations]
  rfl

end Contents

theorem taken_eq_flatMap_contents_reused :
    let calls : List Call := [.queue 7 ⟨1, 5, [171]⟩, .queue 8 ⟨9, 9, []⟩, .clearByUpdate 7,
      .forget 7, .queue 7 ⟨2, 9, []⟩, .attach 7, .queue 7 ⟨3, 3, []⟩, .clearByCommand 7,
      .clearByUpdate 7, .forget 7, .queue 7 ⟨4, 1, [1, 2]⟩]
    let exchanges := (transcript (perform (O := Object)) ∅ calls).filter
      fun exchange ↦ exchange.call.entity = 7
    let lives := incarnations ((run (perform (O := Object)) ∅ calls).batch? 7) [] exchanges
    WalksUpTo Object calls.length ∧ lives.length = 3 ∧
      ∃ batches, lives.mapM Incarnation.contents = .ok batches ∧
        batches.flatMap Batch.rpcs = [⟨1, 5, [171]⟩, ⟨2, 9, []⟩, ⟨4, 1, [1, 2]⟩] := by
  intro calls exchanges lives
  have hwalk : WalksUpTo Object calls.length := fun _ _ _ ↦ rfl
  have hqueued : exchanges.filterMap Exchange.queued? =
      [⟨1, 5, [171]⟩, ⟨2, 9, []⟩, ⟨4, 1, [1, 2]⟩] := by decide
  obtain ⟨-, batches, hbatches, htaken⟩ := taken_eq_flatMap_contents calls 7 hwalk
  exact ⟨hwalk, by decide, batches, hbatches, htaken.symm.trans hqueued⟩

end EntityRpc.Tracker
