import UnitControl.Proofs.Engine.Move

/-!
# What answers change

An answer takes its caller from those who wait and is written down, and nothing else changes. So it
is with the replies of the dispatcher and with the end of an operation, but for a caller that takes
its operation back.
-/

namespace UnitControl.Engine

variable {e : Engine}

@[simp] theorem registry_answer (e : Engine) (id : CallerId) (a : Answer) :
    (e.answer id a).registry = e.registry := by
  unfold answer
  split <;> rfl

@[simp] theorem holder_answer (e : Engine) (id : CallerId) (a : Answer) :
    (e.answer id a).holder = e.holder := by
  unfold answer
  split <;> rfl

@[simp] theorem fresh_answer (e : Engine) (id : CallerId) (a : Answer) :
    (e.answer id a).fresh = e.fresh := by
  unfold answer
  split <;> rfl

@[simp] theorem dispatcher_answer (e : Engine) (id : CallerId) (a : Answer) :
    (e.answer id a).dispatcher = e.dispatcher := by
  unfold answer
  split <;> rfl

@[simp] theorem outlets_answer (e : Engine) (id : CallerId) (a : Answer) :
    (e.answer id a).outlets = e.outlets := by
  unfold answer
  split <;> rfl

@[simp] theorem queue_answer (e : Engine) (id : CallerId) (a : Answer) :
    (e.answer id a).queue = e.queue := by
  unfold answer
  split <;> rfl

theorem get?_callers_answer (e : Engine) (id : CallerId) (a : Answer) (c : CallerId) :
    (e.answer id a).callers.get? c = if c = id then none else e.callers.get? c := by
  unfold answer
  cases h : e.callers.contains id with
  | true => exact Table.get?_erase e.callers id c
  | false =>
    have hn := Table.contains_eq_false_iff.1 h
    by_cases hc : c = id
    · subst hc
      simp [hn]
    · simp [hc]

theorem record_answer (e : Engine) (id : CallerId) (a : Answer) :
    (e.answer id a).record =
      if e.callers.contains id then .answered id a :: e.record else e.record := by
  unfold answer
  split
  · exact record_note _ _
  · rfl

theorem record_answer_of_waits {id : CallerId} {w : Wait} (h : e.callers.get? id = some w)
    (a : Answer) : (e.answer id a).record = .answered id a :: e.record := by
  rw [record_answer, Table.contains_of_get? h, if_pos rfl]

theorem record_answer_of_none {id : CallerId} (h : e.callers.get? id = none) (a : Answer) :
    (e.answer id a).record = e.record := by
  rw [record_answer, Table.contains_eq_false_iff.2 h, if_neg (by simp)]

theorem record_answer_append (e : Engine) (id : CallerId) (a : Answer) :
    ∃ l, (e.answer id a).record = l ++ e.record ∧ ∀ entry ∈ l, entry = .answered id a := by
  rw [record_answer]
  split
  · exact ⟨[.answered id a], rfl, by simp⟩
  · exact ⟨[], rfl, by simp⟩

theorem record_answer_subset (e : Engine) (id : CallerId) (a : Answer) :
    e.record ⊆ (e.answer id a).record := by
  rw [record_answer]
  split
  · exact List.subset_cons_self _ _
  · exact List.Subset.refl _

@[simp] theorem dispatch_singleton (e : Engine) (d : Dispatcher) (reply : Reply) :
    e.dispatch (d, [reply]) = { e with dispatcher := d }.answer reply.1 reply.2 := rfl

theorem answerAll_induct {I : Engine → Prop} {replies : List Reply} (h : I e)
    (answer : ∀ e reply, reply ∈ replies → I e → I (e.answer reply.1 reply.2)) :
    I (e.answerAll replies) := by
  induction replies generalizing e with
  | nil => exact h
  | cons reply rest ih =>
    apply ih (answer e reply List.mem_cons_self h)
    intro e' reply' hm
    exact answer e' reply' (List.mem_cons_of_mem _ hm)

@[simp] theorem fresh_answerAll (e : Engine) (replies : List Reply) :
    (e.answerAll replies).fresh = e.fresh :=
  answerAll_induct (I := fun e' => e'.fresh = e.fresh) rfl fun _ _ _ h =>
    (fresh_answer _ _ _).trans h

@[simp] theorem dispatcher_answerAll (e : Engine) (replies : List Reply) :
    (e.answerAll replies).dispatcher = e.dispatcher :=
  answerAll_induct (I := fun e' => e'.dispatcher = e.dispatcher) rfl fun _ _ _ h =>
    (dispatcher_answer _ _ _).trans h

theorem get?_callers_answerAll (e : Engine) (replies : List Reply) (c : CallerId) :
    (e.answerAll replies).callers.get? c =
      if c ∈ replies.map Prod.fst then none else e.callers.get? c := by
  induction replies generalizing e with
  | nil => rfl
  | cons reply rest ih =>
    have ih := ih (e.answer reply.1 reply.2)
    rw [get?_callers_answer] at ih
    rw [List.map_cons]
    by_cases hc : c = reply.1
    · rw [if_pos hc, ite_self] at ih
      rw [if_pos (hc ▸ List.mem_cons_self)]
      exact ih
    · rw [if_neg hc] at ih
      simp only [List.mem_cons, hc, false_or]
      exact ih

theorem record_answerAll (e : Engine) (replies : List Reply) :
    ∃ answers, (e.answerAll replies).record = answers ++ e.record ∧
      ∀ entry ∈ answers, ∃ reply ∈ replies, entry = .answered reply.1 reply.2 ∧
        e.callers.contains reply.1 = true := by
  induction replies generalizing e with
  | nil => exact ⟨[], rfl, by simp⟩
  | cons reply rest ih =>
    obtain ⟨answers, hr, ha⟩ := ih (e.answer reply.1 reply.2)
    have ha : ∀ entry ∈ answers, ∃ reply' ∈ reply :: rest, entry = .answered reply'.1 reply'.2 ∧
        e.callers.contains reply'.1 = true := by
      intro entry hentry
      obtain ⟨reply', hm, he, hw⟩ := ha entry hentry
      refine ⟨reply', List.mem_cons_of_mem _ hm, he, ?_⟩
      rw [Table.contains, get?_callers_answer] at hw
      split at hw
      · cases hw
      · exact hw
    have hr : (e.answerAll (reply :: rest)).record = _ := hr
    rw [record_answer] at hr
    split at hr
    · rename_i hw
      refine ⟨answers ++ [.answered reply.1 reply.2], by simpa using hr, ?_⟩
      intro entry hentry
      rcases List.mem_append.1 hentry with hm | hm
      · exact ha entry hm
      · exact ⟨reply, List.mem_cons_self, List.mem_singleton.1 hm, hw⟩
    · exact ⟨answers, hr, ha⟩

theorem dispatcher_dispatch (e : Engine) (r : Dispatcher × List Reply) :
    (e.dispatch r).dispatcher = r.1 := dispatcher_answerAll _ _

@[simp] theorem registry_dispatch (e : Engine) (r : Dispatcher × List Reply) :
    (e.dispatch r).registry = e.registry :=
  answerAll_induct (I := fun x => x.registry = e.registry) rfl fun _ _ _ h =>
    (registry_answer _ _ _).trans h

@[simp] theorem outlets_dispatch (e : Engine) (r : Dispatcher × List Reply) :
    (e.dispatch r).outlets = e.outlets :=
  answerAll_induct (I := fun x => x.outlets = e.outlets) rfl fun _ _ _ h =>
    (outlets_answer _ _ _).trans h

@[simp] theorem queue_dispatch (e : Engine) (r : Dispatcher × List Reply) :
    (e.dispatch r).queue = e.queue :=
  answerAll_induct (I := fun x => x.queue = e.queue) rfl fun _ _ _ h =>
    (queue_answer _ _ _).trans h

@[simp] theorem registry_noteCall (e : Engine) : e.noteCall.registry = e.registry := by
  unfold noteCall
  split <;> rfl

@[simp] theorem outlets_noteCall (e : Engine) : e.noteCall.outlets = e.outlets := by
  unfold noteCall
  split <;> rfl

@[simp] theorem outlets_askTargets (e : Engine) : e.askTargets.outlets = e.outlets := by
  unfold askTargets
  split <;> rfl

theorem record_dispatch (e : Engine) (r : Dispatcher × List Reply) :
    ∃ answers, (e.dispatch r).record = answers ++ e.record ∧
      ∀ entry ∈ answers, ∃ c a, entry = .answered c a := by
  obtain ⟨answers, hr, ha⟩ := record_answerAll { e with dispatcher := r.1 } r.2
  refine ⟨answers, hr, fun entry hm => ?_⟩
  obtain ⟨reply, -, he, -⟩ := ha entry hm
  exact ⟨_, _, he⟩

theorem takeCommand_turn {r : Dispatcher × List Reply} (h : e.dispatcher.takeCommand? = some r) :
    e.dispatcher.stage = .idle ∧
      ((∃ c request rest, e.dispatcher.commands = .submit c request :: rest ∧
          (e.dispatch r).noteCall =
            { e with dispatcher := { e.dispatcher with
              commands := rest, stage := .calling c request } }.note (.asked (.job c request))) ∨
        ∃ c rest, e.dispatcher.commands = .count c :: rest ∧
          (e.dispatch r).noteCall =
            { e with dispatcher := { e.dispatcher with commands := rest } }.answer c
              (.pending (.ok e.dispatcher.pending.size))) := by
  obtain ⟨hs, ⟨c, request, rest, hc, rfl⟩ | ⟨c, rest, hc, rfl⟩⟩ := Dispatcher.takeCommand_cases h
  · exact ⟨hs, .inl ⟨c, request, rest, hc, rfl⟩⟩
  · refine ⟨hs, .inr ⟨c, rest, hc, ?_⟩⟩
    rw [dispatch_singleton]
    unfold noteCall
    simp only [dispatcher_answer, hs]

theorem callReturn_turn {c : CallerId} {request : JobRequest} {result : Except Error String}
    {r : Dispatcher × List Reply} (hs : e.dispatcher.stage = .calling c request)
    (h : e.dispatcher.called? result = some r) :
    (∃ err, result = .error err ∧ (e.note (.jobReturned c result)).dispatch r =
        ({ e with dispatcher := { e.dispatcher with stage := .idle } }.note
          (.jobReturned c (.error err))).answer c (.job (.error err))) ∨
      ∃ path, result = .ok path ∧
        ((e.dispatcher.pending.get? path = none ∧ (e.note (.jobReturned c result)).dispatch r =
            { e with dispatcher := { e.dispatcher with
              stage := .idle, pending := e.dispatcher.pending.put path c } }.note
                (.jobReturned c (.ok path))) ∨
          ∃ older, e.dispatcher.pending.get? path = some older ∧
            (e.note (.jobReturned c result)).dispatch r =
              ({ e with dispatcher := { e.dispatcher with
                stage := .idle, pending := e.dispatcher.pending.put path c } }.note
                  (.jobReturned c (.ok path))).answer older (.job (.error .dropped))) := by
  obtain ⟨err, rfl, rfl⟩ | ⟨path, rfl, rfl⟩ := Dispatcher.called_cases hs h
  · exact .inl ⟨err, rfl, rfl⟩
  · refine .inr ⟨path, rfl, ?_⟩
    cases hp : e.dispatcher.pending.get? path with
    | none => exact .inl ⟨rfl, rfl⟩
    | some older => exact .inr ⟨older, rfl, rfl⟩

theorem takeSignal_turn {item : Except Error Signal} {rest : List (Except Error Signal)}
    {r : Dispatcher × List Reply} (hi : e.dispatcher.signals = item :: rest)
    (h : e.dispatcher.takeSignal? = some r) :
    e.dispatcher.stage = .idle ∧
      ((∃ path output c, Signal.reported? item = some (path, output) ∧
          e.dispatcher.pending.get? path = some c ∧
          (e.note (.tookSignal item)).dispatch r =
            ({ e with dispatcher := { e.dispatcher with
              signals := rest, pending := e.dispatcher.pending.erase path } }.note
                (.tookSignal item)).answer c (.job (.ok output))) ∨
        ∃ stage : Stage, (stage = .idle ∨ ∃ parcel, stage = .collecting parcel) ∧
          (∀ path output, Signal.reported? item = some (path, output) →
            e.dispatcher.pending.get? path = none) ∧
          (e.note (.tookSignal item)).dispatch r =
            { e with dispatcher := { e.dispatcher with signals := rest, stage := stage } }.note
              (.tookSignal item)) := by
  obtain ⟨hs, ⟨path, output, c, hr, hp, rfl⟩ | ⟨stage, hstage, hn, rfl⟩⟩ :=
    Dispatcher.takeSignal_cases hi h
  · exact ⟨hs, .inl ⟨path, output, c, hr, hp, rfl⟩⟩
  · exact ⟨hs, .inr ⟨stage, hstage, hn, rfl⟩⟩

theorem settle_cases (e : Engine) (task : Task) (result : Except Error Unit) :
    ((∀ id op finish, task = .caller id → e.callers.get? id ≠ some (.operation op finish)) ∧
        e.settle task result = e) ∨
      ∃ id op finish, task = .caller id ∧ e.callers.get? id = some (.operation op finish) ∧
        ((∃ next cause, finish = .undo next cause ∧ e.settle task result =
            e.await id (.operation next (.fail (.noRuntime "unitlink-cancel" cause)))) ∨
          ∃ outcome, e.settle task result = e.answer id (.done outcome)) := by
  cases task with
  | watcher feed => exact .inl ⟨by simp, rfl⟩
  | dispatcher => exact .inl ⟨by simp, rfl⟩
  | poller id => exact .inl ⟨by simp, rfl⟩
  | caller id =>
    simp only [settle]
    split
    · rename_i op finish h
      refine .inr ⟨id, op, finish, rfl, h, ?_⟩
      split
      · exact .inl ⟨_, _, rfl, rfl⟩
      · exact .inr ⟨_, rfl⟩
      · exact .inr ⟨_, rfl⟩
    · rename_i hn
      refine .inl ⟨fun id' op finish hid hw => ?_, rfl⟩
      cases hid
      exact hn op finish hw

theorem book_done (e : Engine) (task : Task) (r : Registry) (result : Except Error Unit) :
    e.book task (r, .done result) = { e with registry := r }.settle task result := rfl

theorem settle_same {α : Type} (f : Engine → α) (ha : ∀ e id a, f (answer e id a) = f e)
    (hw : ∀ e id w, f (await e id w) = f e) (e : Engine) (task : Task)
    (result : Except Error Unit) : f (e.settle task result) = f e := by
  obtain ⟨-, h⟩ | ⟨id, op, finish, -, -, ⟨next, cause, -, h⟩ | ⟨outcome, h⟩⟩ :=
    settle_cases e task result
  · rw [h]
  · rw [h, hw]
  · rw [h, ha]

@[simp] theorem dispatcher_settle (e : Engine) (task : Task) (result : Except Error Unit) :
    (e.settle task result).dispatcher = e.dispatcher :=
  settle_same dispatcher dispatcher_answer (fun _ _ _ => rfl) e task result

@[simp] theorem holder_settle (e : Engine) (task : Task) (result : Except Error Unit) :
    (e.settle task result).holder = e.holder :=
  settle_same holder holder_answer (fun _ _ _ => rfl) e task result

@[simp] theorem registry_settle (e : Engine) (task : Task) (result : Except Error Unit) :
    (e.settle task result).registry = e.registry :=
  settle_same registry registry_answer (fun _ _ _ => rfl) e task result

@[simp] theorem fresh_settle (e : Engine) (task : Task) (result : Except Error Unit) :
    (e.settle task result).fresh = e.fresh :=
  settle_same fresh fresh_answer (fun _ _ _ => rfl) e task result

@[simp] theorem outlets_settle (e : Engine) (task : Task) (result : Except Error Unit) :
    (e.settle task result).outlets = e.outlets :=
  settle_same outlets outlets_answer (fun _ _ _ => rfl) e task result

theorem record_settle (e : Engine) (task : Task) (result : Except Error Unit) :
    ∃ answers, (e.settle task result).record = answers ++ e.record ∧
      ∀ entry ∈ answers, ∃ id outcome, entry = .answered id (.done outcome) := by
  obtain ⟨-, h⟩ | ⟨id, op, finish, -, hw, ⟨next, cause, -, h⟩ | ⟨outcome, h⟩⟩ :=
    settle_cases e task result
  · exact ⟨[], by rw [h]; rfl, by simp⟩
  · exact ⟨[], by rw [h]; rfl, by simp⟩
  · refine ⟨[.answered id (.done outcome)], by rw [h, record_answer_of_waits hw]; rfl, ?_⟩
    intro entry hm
    exact ⟨id, outcome, List.mem_singleton.1 hm⟩

/-- An operation adds nothing to the record but what it asks of the bus, or the answer to the caller
that made it. -/
theorem record_book (e : Engine) (task : Task) (p : Registry × Registry.Progress) :
    ∃ l, (e.book task p).record = l ++ e.record ∧
      ∀ entry ∈ l, (∃ call, entry = .asked (.matchRule call)) ∨
        ∃ id outcome, entry = .answered id (.done outcome) := by
  obtain ⟨r, progress⟩ := p
  cases progress with
  | done result =>
    obtain ⟨answers, hr, ha⟩ := record_settle { e with registry := r } task result
    exact ⟨answers, hr, fun entry hm => .inr (ha entry hm)⟩
  | ask call pause =>
    refine ⟨[.asked (.matchRule call)], record_note _ _, fun entry hm => ?_⟩
    exact .inl ⟨call, List.mem_singleton.1 hm⟩

@[simp] theorem registry_book (e : Engine) (task : Task) (p : Registry × Registry.Progress) :
    (e.book task p).registry = p.1 := by
  obtain ⟨r, progress⟩ := p
  cases progress with
  | done result => exact registry_settle _ task result
  | ask call pause => rfl

@[simp] theorem dispatcher_book (e : Engine) (task : Task)
    (p : Registry × Registry.Progress) : (e.book task p).dispatcher = e.dispatcher := by
  obtain ⟨r, progress⟩ := p
  cases progress with
  | done result => exact dispatcher_settle _ task result
  | ask call pause => rfl

theorem fresh_book (e : Engine) (task : Task) (p : Registry × Registry.Progress) :
    (e.book task p).fresh = e.fresh := by
  obtain ⟨r, progress⟩ := p
  cases progress with
  | ask call pause => rfl
  | done result => exact fresh_settle _ task result

variable {e' e'' : Engine}

/-- The registry and its holder are the same, and no caller has come to an operation. -/
structure Spares (e e' : Engine) : Prop where
  fresh : e.fresh ≤ e'.fresh
  registry : e'.registry = e.registry
  holder : e'.holder = e.holder
  endings : e.EndingsRelease → e'.EndingsRelease
  operations : ∀ id op finish, e'.callers.get? id = some (.operation op finish) →
    e.callers.get? id = some (.operation op finish)

namespace Spares

theorem of_eq (hf : e'.fresh = e.fresh) (hr : e'.registry = e.registry)
    (hh : e'.holder = e.holder) (ho : e'.outlets = e.outlets) (hc : e'.callers = e.callers) :
    Spares e e' where
  fresh := Nat.le_of_eq hf.symm
  registry := hr
  holder := hh
  endings he feed o h := he feed o (ho ▸ h)
  operations _ _ _ h := hc ▸ h

theorem refl (e : Engine) : Spares e e := .of_eq rfl rfl rfl rfl rfl

theorem trans (h : Spares e e') (h' : Spares e' e'') : Spares e e'' where
  fresh := Nat.le_trans h.fresh h'.fresh
  registry := h'.registry.trans h.registry
  holder := h'.holder.trans h.holder
  endings := h'.endings ∘ h.endings
  operations id op finish hw := h.operations id op finish (h'.operations id op finish hw)

theorem note (e : Engine) (entry : Entry) : Spares e (e.note entry) :=
  .of_eq rfl rfl rfl rfl rfl

theorem number (e : Engine) : Spares e { e with fresh := e.fresh + 1 } :=
  ⟨Nat.le_succ _, rfl, rfl, id, fun _ _ _ => id⟩

theorem answer (e : Engine) (id : CallerId) (a : Answer) : Spares e (e.answer id a) where
  fresh := Nat.le_of_eq (fresh_answer e id a).symm
  registry := registry_answer e id a
  holder := holder_answer e id a
  endings he := by simpa only [EndingsRelease, outlets_answer] using he
  operations c op finish hw := by
    rw [get?_callers_answer] at hw
    split at hw
    · cases hw
    · exact hw

theorem dispatch (e : Engine) (r : Dispatcher × List Reply) : Spares e (e.dispatch r) := by
  have hd : Spares e { e with dispatcher := r.1 } := .of_eq rfl rfl rfl rfl rfl
  exact answerAll_induct (I := Spares e) hd fun x reply _ h => h.trans (answer x reply.1 reply.2)

theorem noteCall (e : Engine) : Spares e e.noteCall := by
  unfold Engine.noteCall
  split
  · exact note e _
  · exact refl e

theorem send {w : Wait} (hw : ∀ op finish, w ≠ .operation op finish) (c : Command) :
    Spares e (({ e with fresh := e.fresh + 1 }.await e.fresh w).send c) where
  fresh := Nat.le_succ _
  registry := rfl
  holder := rfl
  endings := id
  operations id op finish hid := by
    have hid : (e.callers.put e.fresh w).get? id = some (.operation op finish) := hid
    rw [Table.get?_put] at hid
    split at hid
    · exact absurd (Option.some.inj hid) (hw op finish)
    · exact hid

end Spares

/-- A move spares the registry, or it brings a new caller, begins an operation or goes on with
one. -/
theorem Move.cases (h : Move e e') :
    Spares e e' ∨
      (∃ w : Wait, w.Suits e.fresh ∧ e' = { e with fresh := e.fresh + 1 }.await e.fresh w) ∨
      (∃ task op, e.holder = none ∧ e.Intends task op ∧
        e' = e.book task (e.registry.begin op)) ∨
      ∃ holder answer, e.holder = some holder ∧
        e' = ({ e with holder := none }.note (.matchReturned holder.call answer)).book
          holder.task (e.registry.resume answer holder.pause) := by
  cases h with
  | rest => exact .inl (.refl e)
  | number => exact .inl (.number e)
  | refuse ha hd => exact .inl ((Spares.number e).trans (.note _ _))
  | enrol hw => exact .inr (.inl ⟨_, hw, rfl⟩)
  | submit hs hl => exact .inl (.send (by simp) _)
  | count hs => exact .inl (.send (by simp) _)
  | serve hw hk ha => exact .inl (.answer e _ _)
  | expire hw => exact .inl (.answer e _ _)
  | operate hh hi => exact .inr (.inr (.inl ⟨_, _, hh, hi, rfl⟩))
  | resume answer hh => exact .inr (.inr (.inr ⟨_, answer, hh, rfl⟩))
  | arrive item =>
    have ha : Spares e { e with dispatcher := e.dispatcher.receive item } :=
      .of_eq rfl rfl rfl rfl rfl
    exact .inl (ha.trans (.note _ _))
  | endSignals => exact .inl (.of_eq rfl rfl rfl rfl rfl)
  | takeCommand hr => exact .inl ((Spares.dispatch e _).trans (.noteCall _))
  | callReturn hs hr => exact .inl ((Spares.note e _).trans (.dispatch _ _))
  | takeSignal hi hr => exact .inl ((Spares.note e _).trans (.dispatch _ _))
  | stop hs => exact .inl ((Spares.note e _).trans (.dispatch _ _))

/-- Numbers are given out in their order. -/
theorem Move.fresh_le (h : Move e e') : e.fresh ≤ e'.fresh := by
  obtain h | ⟨w, -, rfl⟩ | ⟨task, op, -, -, rfl⟩ | ⟨holder, answer, -, rfl⟩ := h.cases
  · exact h.fresh
  · exact Nat.le_succ _
  · exact Nat.le_of_eq (fresh_book _ _ _).symm
  · have hb := fresh_book ({ e with holder := none }.note (.matchReturned holder.call answer))
      holder.task (e.registry.resume answer holder.pause)
    exact Nat.le_of_eq hb.symm

theorem fresh_le_of_step {event : Event} (h : e.step event = some e') : e.fresh ≤ e'.fresh := by
  obtain ⟨e₁, e₂, h₁, hm, h₂⟩ := moves_of_step h
  rw [h₂.fresh, ← h₁.fresh]
  exact hm.fresh_le

theorem fresh_le_of_run {events : List Event} (h : e.run events = some e') :
    e.fresh ≤ e'.fresh :=
  run_keeps (P := fun x => e.fresh ≤ x.fresh)
    (fun hle hs => Nat.le_trans hle (fresh_le_of_step hs)) (Nat.le_refl _) h

end UnitControl.Engine
