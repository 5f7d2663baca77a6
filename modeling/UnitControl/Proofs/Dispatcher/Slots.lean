import UnitControl.Proofs.Dispatcher.Turn
import UnitControl.Proofs.Table

/-!
# Reply slots

With every command its caller hands a slot for the reply to the dispatcher. The dispatcher keeps the
slot in its queue, with the call that is out, or in the table of pending jobs, and uses it at most
once: what it does next, the slots of the replies that it gives and those that it keeps are the ones
that it had.
-/

namespace UnitControl

namespace Dispatcher

variable {d : Dispatcher}

/-- The callers that can still get a reply. -/
def slots (d : Dispatcher) : List CallerId :=
  d.commands.map Command.caller ++ (d.stage.call?.map Prod.fst).toList ++ d.pending.values

theorem mem_slots_of_pending {path : String} {caller : CallerId}
    (h : d.pending.get? path = some caller) : caller ∈ d.slots :=
  List.mem_append_right _ (Table.mem_values_of_get? h)

/-- The slots of the replies and of what is left are those that there were. -/
def Conserves (d : Dispatcher) (r : Dispatcher × List Reply) : Prop :=
  (r.2.map Prod.fst ++ r.1.slots).Perm d.slots

theorem Conserves.mem_slots {r : Dispatcher × List Reply} (h : d.Conserves r) {caller : CallerId}
    (hm : caller ∈ r.1.slots) : caller ∈ d.slots :=
  h.subset (List.mem_append_right _ hm)

theorem Conserves.not_mem_slots {r : Dispatcher × List Reply} (h : d.Conserves r)
    (hd : d.slots.Nodup) {reply : Reply} (hm : reply ∈ r.2) : reply.1 ∉ r.1.slots := by
  obtain ⟨-, -, hdisj⟩ := List.nodup_append.1 (h.nodup_iff.2 hd)
  intro hs
  exact hdisj _ (List.mem_map_of_mem hm) _ hs rfl

theorem conserves_takeCommand {r : Dispatcher × List Reply} (h : d.takeCommand? = some r) :
    d.Conserves r := by
  obtain ⟨hs, ⟨caller, request, rest, hc, rfl⟩ | ⟨caller, rest, hc, rfl⟩⟩ := takeCommand_cases h
  · simp only [Conserves, slots, hs, hc, Stage.call?, List.map_nil, List.nil_append, List.map_cons,
      Option.map_some, Option.map_none, Option.toList_some, Option.toList_none, List.append_nil,
      Command.caller]
    rw [List.append_assoc]
    exact List.perm_middle
  · simp only [Conserves, slots, hc]
    exact .refl _

theorem conserves_called {caller : CallerId} {request : JobRequest} {result : Except Error String}
    {r : Dispatcher × List Reply} (hs : d.stage = .calling caller request)
    (h : d.called? result = some r) : d.Conserves r := by
  have hd : d.slots = d.commands.map Command.caller ++ caller :: d.pending.values := by
    simp [slots, hs, Stage.call?]
  unfold Conserves
  rw [hd]
  obtain ⟨err, -, rfl⟩ | ⟨path, -, rfl⟩ := called_cases hs h
  · simp only [slots, Stage.call?, Option.map_none, Option.toList_none, List.append_nil,
      List.map_cons, List.map_nil, List.singleton_append]
    exact List.perm_middle.symm
  · have hp := (d.pending.values_put_perm path caller).append_left (d.commands.map Command.caller)
    rw [← List.append_assoc] at hp
    simp only [slots, Stage.call?, Option.map_none, Option.toList_none, List.append_nil,
      List.map_map, Function.comp_def, List.map_id']
    rw [← List.append_assoc]
    exact (List.perm_append_comm.append_right _).trans hp

theorem conserves_takeSignal {item : Except Error Signal} {rest : List (Except Error Signal)}
    {r : Dispatcher × List Reply} (hi : d.signals = item :: rest) (h : d.takeSignal? = some r) :
    d.Conserves r := by
  obtain ⟨hs, ⟨path, output, caller, -, hp, rfl⟩ | ⟨stage, hstage, -, rfl⟩⟩ :=
    takeSignal_cases hi h
  · have hv := d.pending.values_erase_perm path
    rw [hp] at hv
    have hm : List.Perm (d.commands.map Command.caller ++ (d.stage.call?.map Prod.fst).toList ++
        caller :: (d.pending.erase path).values) (caller :: (d.commands.map Command.caller ++
          (d.stage.call?.map Prod.fst).toList ++ (d.pending.erase path).values)) :=
      List.perm_middle
    exact hm.symm.trans (hv.append_left _)
  · have hcall : stage.call? = d.stage.call? := by
      rw [hs]
      obtain rfl | ⟨parcel, rfl⟩ := hstage <;> rfl
    simp only [Conserves, slots, hcall]
    exact .refl _

theorem map_fst_refusals (commands : List Command) :
    (commands.map Command.refusal).map Prod.fst = commands.map Command.caller := by
  rw [List.map_map]
  apply List.map_congr_left
  intro c _
  cases c <;> rfl

theorem conserves_stop (h : d.stage = .idle) : d.Conserves d.stop := by
  have hs : d.stop.1.slots = [] := rfl
  unfold Conserves
  rw [hs, List.append_nil]
  simp only [stop, slots, h, Stage.call?, Option.map_none, Option.toList_none, List.append_nil,
    List.map_append, map_fst_refusals]
  rw [List.map_map]
  exact List.perm_append_comm

end Dispatcher

end UnitControl
