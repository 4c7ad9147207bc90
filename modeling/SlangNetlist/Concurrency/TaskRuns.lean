import SlangNetlist.Concurrency.TaskBuffers

/-!
# Runs of the tasks of phase 2

Whatever threads run the tasks and in whatever order, the drained queue is the
one of the sequential build, and no cache returns a record of an earlier build.
-/

namespace SlangNetlist.TaskBuffers

open Library

variable {Error Thread : Type} [DecidableEq Thread] {tasks : List (Task Error)}
  {state next : State Error Thread} {thread other : Thread} {index : Nat} {action : TaskAction}
  {ahead : List TaskAction} {queue : List PendingRvalue}

section Update

variable {data : Local}

@[simp] theorem locals_update_self : (state.update thread data).locals thread = data :=
  Function.update_self ..

theorem locals_update_of_ne (apart : other ≠ thread) :
    (state.update thread data).locals other = state.locals other :=
  Function.update_of_ne apart ..

end Update

/-- What a step does. -/
inductive StepCases (tasks : List (Task Error)) (state : State Error Thread) (thread : Thread)
    (next : State Error Thread) : Prop
  | takes {index : Nat} {task : Task Error} : tasks[index]? = some task →
      (state.locals thread).running = none → index ∉ state.taken →
      next = { state with taken := index :: state.taken }.update thread
        { running := some (index, task.actions), threadLocalDeferredWork := some index } →
      StepCases tasks state thread next
  | performs {index : Nat} {action : TaskAction} {ahead : List TaskAction} :
      (state.locals thread).running = some (index, action :: ahead) →
      next = (perform state thread action).update thread
        { (perform state thread action).locals thread with running := some (index, ahead) } →
      StepCases tasks state thread next
  | ends {index : Nat} : (state.locals thread).running = some (index, []) →
      next = { state with
        pendingException := state.pendingException.or (tasks[index]?.bind Task.throws) }.update
          thread { state.locals thread with running := none, threadLocalDeferredWork := none } →
      StepCases tasks state thread next

theorem step_cases {move : Move Thread} (stepped : step tasks state move = some next) :
    ∃ thread, StepCases tasks state thread next := by
  cases move with
  | take thread index =>
      simp only [step] at stepped
      split at stepped
      · next task known idle =>
          split at stepped
          · cases stepped
          · next untaken => exact ⟨thread, .takes known idle untaken (Option.some.inj stepped).symm⟩
      · cases stepped
  | resume thread =>
      simp only [step] at stepped
      split at stepped
      · cases stepped
      · next running => exact ⟨thread, .performs running (Option.some.inj stepped).symm⟩
      · next running => exact ⟨thread, .ends running (Option.some.inj stepped).symm⟩

/-! ## The buffers -/

/-- An action of a thread that has a buffer. -/
structure Performs (state : State Error Thread) (thread : Thread) (index : Nat)
    (action : TaskAction) (after : State Error Thread) : Prop where
  queue : after.queue = state.queue
  allWork : after.allWork =
    Function.update state.allWork index (state.allWork index ++ action.pending?.toList)
  taken : after.taken = state.taken
  pendingException : after.pendingException = state.pendingException
  others : ∀ other ≠ thread, after.locals other = state.locals other
  buffer : (after.locals thread).threadLocalDeferredWork =
    (state.locals thread).threadLocalDeferredWork

theorem performs_perform (buffer : (state.locals thread).threadLocalDeferredWork = some index) :
    Performs state thread index action (perform state thread action) := by
  cases action with
  | enqueue pending =>
      simp only [perform, enqueue, buffer]
      exact ⟨rfl, rfl, rfl, rfl, fun _ _ => rfl, rfl⟩
  | toSymbolRef symbol =>
      have kept : state.allWork = Function.update state.allWork index
          (state.allWork index ++ (TaskAction.toSymbolRef symbol).pending?.toList) := by
        simp [TaskAction.pending?]
      simp only [perform, toSymbolRef]
      split
      · exact ⟨rfl, kept, rfl, rfl, fun _ _ => rfl, rfl⟩
      · refine ⟨rfl, kept, rfl, rfl, fun _ apart => locals_update_of_ne apart, ?_⟩
        rw [locals_update_self]

/-- Each R-value that a task has enqueued is in the buffer of the task. -/
structure Routed (tasks : List (Task Error)) (queue : List PendingRvalue)
    (state : State Error Thread) : Prop where
  queue : state.queue = queue
  untaken : ∀ index ∉ state.taken, state.allWork index = []
  running : ∀ thread index ahead, (state.locals thread).running = some (index, ahead) →
    index ∈ state.taken ∧ (state.locals thread).threadLocalDeferredWork = some index ∧
      ∃ task, tasks[index]? = some task ∧
        state.allWork index ++ ahead.filterMap TaskAction.pending? = task.pendingRValues
  alone : ∀ one two index ahead other, (state.locals one).running = some (index, ahead) →
    (state.locals two).running = some (index, other) → one = two
  ended : ∀ index ∈ state.taken,
    (∀ thread ahead, (state.locals thread).running ≠ some (index, ahead)) →
      ∃ task, tasks[index]? = some task ∧ state.allWork index = task.pendingRValues ∧
        (task.throws ≠ none → state.pendingException ≠ none)
  thrown : ∀ error, state.pendingException = some error → ∃ task ∈ tasks, task.throws = some error

omit [DecidableEq Thread] in
theorem routed_initial {graph : NetlistGraph} {locals : Thread → Local}
    (idle : ∀ thread, (locals thread).running = none) :
    Routed tasks queue
      { graph := graph, queue := queue, locals := locals } where
  queue := rfl
  untaken _ _ := rfl
  running thread index ahead busy := by simp [idle] at busy
  alone one two index ahead other busy := by simp [idle] at busy
  ended index member := by cases member
  thrown error raised := by cases raised

theorem Routed.take {task : Task Error} (routed : Routed tasks queue state)
    (known : tasks[index]? = some task) (idle : (state.locals thread).running = none)
    (untaken : index ∉ state.taken) :
    Routed tasks queue ({ state with taken := index :: state.taken }.update thread
      { running := some (index, task.actions), threadLocalDeferredWork := some index }) := by
  have elsewhere : ∀ other ahead, (state.locals other).running ≠ some (index, ahead) :=
    fun other ahead busy => untaken (routed.running other index ahead busy).1
  refine ⟨routed.queue, fun other absent => ?_, fun other position ahead busy => ?_,
    fun one two position ahead behind first second => ?_, fun position member quiet => ?_,
    routed.thrown⟩
  · exact routed.untaken other fun member => absent (List.mem_cons_of_mem _ member)
  · by_cases mover : other = thread
    · subst other
      rw [locals_update_self] at busy ⊢
      cases busy
      refine ⟨List.mem_cons_self, rfl, task, known, ?_⟩
      have empty : state.allWork index = [] := routed.untaken index untaken
      exact (congrArg (· ++ _) empty).trans (List.nil_append _)
    · rw [locals_update_of_ne mover] at busy ⊢
      obtain ⟨member, rest⟩ := routed.running other position ahead busy
      exact ⟨List.mem_cons_of_mem _ member, rest⟩
  · by_cases oneMoves : one = thread <;> by_cases twoMoves : two = thread
    · rw [oneMoves, twoMoves]
    · subst one
      rw [locals_update_self] at first
      rw [locals_update_of_ne twoMoves] at second
      cases first
      exact absurd second (elsewhere two behind)
    · subst two
      rw [locals_update_self] at second
      rw [locals_update_of_ne oneMoves] at first
      cases second
      exact absurd first (elsewhere one ahead)
    · rw [locals_update_of_ne oneMoves] at first
      rw [locals_update_of_ne twoMoves] at second
      exact routed.alone one two position ahead behind first second
  · rcases List.mem_cons.mp member with rfl | earlier
    · exact absurd (by rw [locals_update_self]) (quiet thread task.actions)
    · refine routed.ended position earlier fun other ahead busy => ?_
      have apart : other ≠ thread := fun same => by simp [same, idle] at busy
      exact quiet other ahead (by rwa [locals_update_of_ne apart])

omit [DecidableEq Thread] in
/-- Another thread is in another task. -/
theorem Routed.apart (routed : Routed tasks queue state) {position : Nat} {rest : List TaskAction}
    (busy : (state.locals thread).running = some (index, ahead))
    (runs : (state.locals other).running = some (position, rest)) (mover : other ≠ thread) :
    position ≠ index := by
  rintro rfl
  exact mover (routed.alone other thread position rest ahead runs busy)

theorem Routed.perform (routed : Routed tasks queue state)
    (busy : (state.locals thread).running = some (index, action :: ahead)) :
    Routed tasks queue ((perform state thread action).update thread
      { (TaskBuffers.perform state thread action).locals thread with
        running := some (index, ahead) }) := by
  obtain ⟨taken, buffer, task, known, progress⟩ := routed.running thread index _ busy
  have performs : Performs state thread index action (TaskBuffers.perform state thread action) :=
    performs_perform buffer
  have others : ∀ other ≠ thread, ∀ data,
      ((TaskBuffers.perform state thread action).update thread data).locals other =
        state.locals other := fun other mover data => by
    rw [locals_update_of_ne mover, performs.others other mover]
  have elsewhere : ∀ position ≠ index,
      (TaskBuffers.perform state thread action).allWork position = state.allWork position :=
    fun position differs => by rw [performs.allWork, Function.update_of_ne differs]
  refine ⟨performs.queue.trans routed.queue, fun other absent => ?_,
    fun other position rest runs => ?_, fun one two position first second oneRuns twoRuns => ?_,
    fun position member quiet => ?_, fun error raised => ?_⟩
  · have untaken : other ∉ state.taken := performs.taken ▸ absent
    have differs : other ≠ index := fun same => untaken (same ▸ taken)
    exact (elsewhere other differs).trans (routed.untaken other untaken)
  · by_cases mover : other = thread
    · subst other
      rw [locals_update_self] at runs ⊢
      cases runs
      refine ⟨performs.taken ▸ taken, performs.buffer.trans buffer, task, known, ?_⟩
      rw [← progress]
      simp only [State.update, performs.allWork, Function.update_self, List.filterMap_cons]
      cases action.pending? <;> simp
    · rw [others other mover] at runs ⊢
      obtain ⟨member, buffered, job, found, rest'⟩ := routed.running other position rest runs
      refine ⟨performs.taken ▸ member, buffered, job, found, ?_⟩
      rw [← rest']
      exact congrArg (· ++ _) (elsewhere position (routed.apart busy runs mover))
  · by_cases oneMoves : one = thread <;> by_cases twoMoves : two = thread
    · rw [oneMoves, twoMoves]
    · subst one
      rw [locals_update_self] at oneRuns
      rw [others two twoMoves] at twoRuns
      cases oneRuns
      exact absurd rfl (routed.apart busy twoRuns twoMoves)
    · subst two
      rw [locals_update_self] at twoRuns
      rw [others one oneMoves] at oneRuns
      cases twoRuns
      exact absurd rfl (routed.apart busy oneRuns oneMoves)
    · rw [others one oneMoves] at oneRuns
      rw [others two twoMoves] at twoRuns
      exact routed.alone one two position first second oneRuns twoRuns
  · have differs : position ≠ index := by
      rintro rfl
      exact quiet thread ahead (by rw [locals_update_self])
    obtain ⟨job, found, written, raised⟩ := routed.ended position (performs.taken ▸ member)
      fun other rest runs => by
        by_cases mover : other = thread
        · subst other
          rw [busy] at runs
          cases runs
          exact differs rfl
        · exact quiet other rest (by rwa [others other mover])
    refine ⟨job, found, (elsewhere position differs).trans written, fun throws => ?_⟩
    exact fun none => raised throws (performs.pendingException.symm.trans none)
  · exact routed.thrown error (performs.pendingException.symm.trans raised)

theorem Routed.leave (routed : Routed tasks queue state)
    (busy : (state.locals thread).running = some (index, [])) :
    Routed tasks queue ({ state with
      pendingException := state.pendingException.or (tasks[index]?.bind Task.throws) }.update
        thread { state.locals thread with running := none, threadLocalDeferredWork := none }) := by
  obtain ⟨taken, buffer, task, known, progress⟩ := routed.running thread index _ busy
  have written : state.allWork index = task.pendingRValues := by simpa using progress
  refine ⟨routed.queue, routed.untaken, fun other position rest runs => ?_,
    fun one two position first second oneRuns twoRuns => ?_, fun position member quiet => ?_,
    fun error raised => ?_⟩
  · have mover : other ≠ thread := by
      rintro rfl
      rw [locals_update_self] at runs
      cases runs
    rw [locals_update_of_ne mover] at runs ⊢
    exact routed.running other position rest runs
  · have oneMoves : one ≠ thread := by
      rintro rfl
      rw [locals_update_self] at oneRuns
      cases oneRuns
    have twoMoves : two ≠ thread := by
      rintro rfl
      rw [locals_update_self] at twoRuns
      cases twoRuns
    rw [locals_update_of_ne oneMoves] at oneRuns
    rw [locals_update_of_ne twoMoves] at twoRuns
    exact routed.alone one two position first second oneRuns twoRuns
  · by_cases same : position = index
    · subst position
      refine ⟨task, known, written, fun throws none => ?_⟩
      simp only [State.update, known, Option.bind_some, Option.or_eq_none_iff] at none
      exact throws none.2
    · obtain ⟨job, found, wrote, raised⟩ := routed.ended position member fun other rest runs => by
        by_cases mover : other = thread
        · subst other
          rw [busy] at runs
          cases runs
          exact same rfl
        · exact quiet other rest (by rwa [locals_update_of_ne mover])
      refine ⟨job, found, wrote, fun throws none => raised throws ?_⟩
      simp only [State.update, Option.or_eq_none_iff] at none
      exact none.1
  · simp only [State.update, Option.or_eq_some_iff, known, Option.bind_some] at raised
    rcases raised with earlier | ⟨_, now⟩
    · exact routed.thrown error earlier
    · exact ⟨task, List.mem_of_getElem? known, now⟩

theorem Routed.step {move : Move Thread} (routed : Routed tasks queue state)
    (stepped : step tasks state move = some next) : Routed tasks queue next := by
  obtain ⟨thread, cases⟩ := step_cases stepped
  cases cases with
  | takes known idle untaken moved => exact moved ▸ routed.take known idle untaken
  | performs busy moved => exact moved ▸ routed.perform busy
  | ends busy moved => exact moved ▸ routed.leave busy

/-! ## The drained queue -/

omit [DecidableEq Thread] in
theorem drain_eq (state : State Error Thread) (count : Nat) :
    drain state count = state.queue ++ (List.range count).flatMap state.allWork := by
  induction count with
  | zero => simp [drain]
  | succ count ih =>
      unfold drain at ih ⊢
      rw [List.range_succ, List.foldl_append, ih, List.flatMap_append, ← List.append_assoc]
      simp

/-- The sequential queue has the R-values of all tasks, unless a task throws. -/
theorem runPhase2Sequential_eq_ok {after : List PendingRvalue} :
    runPhase2Sequential queue tasks = .ok after ↔
      (∀ task ∈ tasks, task.throws = none) ∧
        after = queue ++ tasks.flatMap Task.pendingRValues := by
  induction tasks generalizing queue with
  | nil => simp [runPhase2Sequential, eq_comm]
  | cons task rest ih =>
      simp only [runPhase2Sequential]
      cases throws : task.throws with
      | some error => simp [throws]
      | none => simp [ih, throws]

/--
When the tasks are done, the parallel phase ends with the queue of the
sequential one, or with the exception of some task when a task throws.
-/
theorem finish_agrees {graph : NetlistGraph} {locals : Thread → Local}
    (idle : ∀ thread, (locals thread).running = none)
    (reached : Reaches (step tasks) { graph := graph, queue := queue, locals := locals } state)
    (finished : Finished tasks state) :
    (∀ after, finish tasks state = .ok after ↔ runPhase2Sequential queue tasks = .ok after) ∧
      ∀ error, finish tasks state = .error error → ∃ task ∈ tasks, task.throws = some error := by
  have routed : Routed tasks queue state :=
    reached.invariant (routed_initial idle) fun _ _ _ routed stepped => routed.step stepped
  have written : ∀ index task, tasks[index]? = some task →
      state.allWork index = task.pendingRValues ∧
        (task.throws ≠ none → state.pendingException ≠ none) := by
    intro index task known
    obtain ⟨inside, _⟩ := List.getElem?_eq_some_iff.mp known
    obtain ⟨job, found, wrote, raised⟩ := routed.ended index (finished.1 index inside)
      fun thread ahead busy => by simp [finished.2 thread] at busy
    cases known.symm.trans found
    exact ⟨wrote, raised⟩
  have drained : drain state tasks.length = queue ++ tasks.flatMap Task.pendingRValues := by
    rw [drain_eq, routed.queue]
    congr 1
    have ranged : (List.range tasks.length).map state.allWork =
        tasks.map Task.pendingRValues := by
      apply List.ext_getElem (by simp)
      intro index inside inTasks
      have known : index < tasks.length := by simpa using inside
      simpa using (written index _ (List.getElem?_eq_getElem known)).1
    rw [List.flatMap_def, List.flatMap_def, ranged]
  refine ⟨fun after => ?_, fun error ended => ?_⟩
  · rw [runPhase2Sequential_eq_ok, finish, drained]
    cases raised : state.pendingException with
    | some error =>
        obtain ⟨task, member, throws⟩ := routed.thrown error raised
        constructor
        · intro same
          cases same
        · rintro ⟨quiet, _⟩
          rw [quiet task member] at throws
          cases throws
    | none =>
        have quiet : ∀ task ∈ tasks, task.throws = none := by
          intro task member
          obtain ⟨index, known⟩ := List.getElem?_of_mem member
          by_contra throws
          exact (written index task known).2 throws raised
        simp only [Except.ok.injEq]
        exact ⟨fun same => ⟨quiet, same.symm⟩, fun ⟨_, same⟩ => same.symm⟩
  · unfold finish at ended
    split at ended
    · next raisedError raised =>
        cases ended
        exact routed.thrown _ raised
    · cases ended

/-! ## The caches -/

/-- The record that the symbol table has for a symbol. -/
def interned (graph : NetlistGraph) (symbol : ValueSymbol) : Option SymbolReference :=
  graph.symbolTable.find? fun entry => entry.hierarchicalPath = symbol.hierarchicalPath

/-- `toSymbolRef` returns the record that the table has, and adds at most one at its end. -/
theorem toSymbolRef_cases (graph : NetlistGraph) (symbol : ValueSymbol) :
    interned (graph.toSymbolRef symbol).2 symbol = some (graph.toSymbolRef symbol).1 ∧
      ∃ added, (graph.toSymbolRef symbol).2.symbolTable = graph.symbolTable ++ added := by
  have located : (graph.toTextLocation symbol.location).2.symbolTable = graph.symbolTable := by
    unfold NetlistGraph.toTextLocation
    split
    · rfl
    · simp only [NetlistGraph.addFile]
      split <;> rfl
  unfold NetlistGraph.toSymbolRef NetlistGraph.intern
  simp only [located]
  split
  · next entry found => exact ⟨by rw [interned, located, found], [], by rw [located, List.append_nil]⟩
  · next absent =>
      refine ⟨?_, _, rfl⟩
      rw [interned, List.find?_append, absent]
      simp

/-- A record that the table has is found after more have been added. -/
theorem interned_of_append {graph later : NetlistGraph} {symbol : ValueSymbol}
    {record : SymbolReference} {added : List SymbolReference}
    (same : later.symbolTable = graph.symbolTable ++ added)
    (found : interned graph symbol = some record) : interned later symbol = some record := by
  rw [interned] at found ⊢
  rw [same, List.find?_append, found]
  rfl

theorem toSymbolRef_of_interned {graph : NetlistGraph} {symbol : ValueSymbol}
    {record : SymbolReference} (found : interned graph symbol = some record) :
    (graph.toSymbolRef symbol).1 = record := by
  obtain ⟨now, added, same⟩ := toSymbolRef_cases graph symbol
  exact Option.some.inj (now.symm.trans (interned_of_append same found))

/-- The symbols of the tasks. -/
def symbols (tasks : List (Task Error)) : List ValueSymbol :=
  tasks.flatMap fun task => task.actions.filterMap TaskAction.symbol?

/-- What the caches of busy threads have, and what has been returned, is in the table. -/
structure Current (tasks : List (Task Error)) (state : State Error Thread) : Prop where
  cached : ∀ thread index ahead, (state.locals thread).running = some (index, ahead) →
    (∀ action ∈ ahead, ∃ task ∈ tasks, action ∈ task.actions) ∧
      ∀ symbol ∈ symbols tasks, ∀ record,
        (state.locals thread).threadLocalSymbolRefCache symbol.id = some record →
          interned state.graph symbol = some record
  returned : ∀ entry ∈ state.returned, interned state.graph entry.1 = some entry.2

/-- What an action does to the table, the caches and the returned records. -/
structure Interns (state : State Error Thread) (thread : Thread) (action : TaskAction)
    (after : State Error Thread) : Prop where
  table : ∃ added, after.graph.symbolTable = state.graph.symbolTable ++ added
  others : ∀ other ≠ thread, after.locals other = state.locals other
  cache : ∀ id record, (after.locals thread).threadLocalSymbolRefCache id = some record →
    (state.locals thread).threadLocalSymbolRefCache id = some record ∨
      ∃ symbol, action = .toSymbolRef symbol ∧ symbol.id = id ∧
        interned after.graph symbol = some record
  returned : ∀ entry ∈ after.returned, entry ∈ state.returned ∨
    (action = .toSymbolRef entry.1 ∧
      ((state.locals thread).threadLocalSymbolRefCache entry.1.id = some entry.2 ∨
        interned after.graph entry.1 = some entry.2))

theorem interns_perform (state : State Error Thread) (thread : Thread) (action : TaskAction) :
    Interns state thread action (perform state thread action) := by
  cases action with
  | enqueue pending =>
      simp only [perform, enqueue]
      split <;>
        exact ⟨⟨[], (List.append_nil _).symm⟩, fun _ _ => rfl, fun _ _ found => .inl found,
          fun _ listed => .inl listed⟩
  | toSymbolRef symbol =>
      obtain ⟨now, added, same⟩ := toSymbolRef_cases state.graph symbol
      simp only [perform, toSymbolRef]
      split
      · next record hit =>
          refine ⟨⟨[], (List.append_nil _).symm⟩, fun _ _ => rfl, fun _ _ found => .inl found,
            fun entry listed => ?_⟩
          rcases List.mem_append.mp listed with old | new
          · exact .inl old
          · obtain rfl := List.mem_singleton.mp new
            exact .inr ⟨rfl, .inl hit⟩
      · refine ⟨⟨added, same⟩, fun _ apart => locals_update_of_ne apart, fun id record found => ?_,
          fun entry listed => ?_⟩
        · rw [locals_update_self] at found
          dsimp only at found
          by_cases cached : id = symbol.id
          · subst id
            rw [Function.update_self] at found
            cases found
            exact .inr ⟨symbol, rfl, rfl, now⟩
          · rw [Function.update_of_ne cached] at found
            exact .inl found
        · rcases List.mem_append.mp listed with old | new
          · exact .inl old
          · obtain rfl := List.mem_singleton.mp new
            exact .inr ⟨rfl, .inr now⟩

theorem Current.perform (current : Current tasks state)
    (identified : ∀ one ∈ symbols tasks, ∀ two ∈ symbols tasks, one.id = two.id → one = two)
    (busy : (state.locals thread).running = some (index, action :: ahead)) :
    Current tasks ((perform state thread action).update thread
      { (TaskBuffers.perform state thread action).locals thread with
        running := some (index, ahead) }) := by
  have interns := interns_perform state thread action
  obtain ⟨added, same⟩ := interns.table
  obtain ⟨listed, cached⟩ := current.cached thread index _ busy
  obtain ⟨task, inTasks, inTask⟩ := listed action List.mem_cons_self
  have asked : ∀ symbol, action = .toSymbolRef symbol → symbol ∈ symbols tasks := by
    rintro symbol rfl
    exact List.mem_flatMap.mpr ⟨task, inTasks, List.mem_filterMap.mpr ⟨_, inTask, rfl⟩⟩
  refine ⟨fun other position rest runs => ?_, fun entry member => ?_⟩
  · by_cases mover : other = thread
    · subst other
      rw [locals_update_self] at runs ⊢
      cases runs
      refine ⟨fun later member => listed later (List.mem_cons_of_mem _ member),
        fun symbol known record found => ?_⟩
      rcases interns.cache symbol.id record found with old | ⟨newest, asks, id, now⟩
      · exact interned_of_append same (cached symbol known record old)
      · rw [← identified newest (asked newest asks) symbol known id]
        exact now
    · rw [locals_update_of_ne mover, interns.others other mover] at runs ⊢
      obtain ⟨listed, cached⟩ := current.cached other position rest runs
      exact ⟨listed, fun symbol known record found =>
        interned_of_append same (cached symbol known record found)⟩
  · rcases interns.returned entry member with old | ⟨asks, hit | now⟩
    · exact interned_of_append same (current.returned entry old)
    · exact interned_of_append same (cached entry.1 (asked entry.1 asks) entry.2 hit)
    · exact now

/-- A task starts with an empty cache, so nothing stale is in it. -/
theorem Current.step {move : Move Thread} (current : Current tasks state)
    (identified : ∀ one ∈ symbols tasks, ∀ two ∈ symbols tasks, one.id = two.id → one = two)
    (stepped : step tasks state move = some next) : Current tasks next := by
  obtain ⟨thread, cases⟩ := step_cases stepped
  cases cases with
  | @takes index task known idle untaken moved =>
      subst moved
      refine ⟨fun other position ahead runs => ?_, current.returned⟩
      by_cases mover : other = thread
      · subst other
        rw [locals_update_self] at runs ⊢
        cases runs
        refine ⟨fun action member => ⟨task, List.mem_of_getElem? known, member⟩, ?_⟩
        intro symbol _ record found
        cases found
      · rw [locals_update_of_ne mover] at runs ⊢
        exact current.cached other position ahead runs
  | performs busy moved => exact moved ▸ current.perform identified busy
  | ends busy moved =>
      subst moved
      refine ⟨fun other position ahead runs => ?_, current.returned⟩
      have mover : other ≠ thread := by
        rintro rfl
        rw [locals_update_self] at runs
        cases runs
      rw [locals_update_of_ne mover] at runs ⊢
      exact current.cached other position ahead runs

/-- The table only grows. -/
theorem interned_of_reaches {symbol : ValueSymbol} {record : SymbolReference}
    (later : Reaches (step tasks) state next) (found : interned state.graph symbol = some record) :
    interned next.graph symbol = some record := by
  apply @Reaches.invariant _ _ (step tasks) state next
    fun later => interned later.graph symbol = some record
  case base => exact found
  case reached => exact later
  intro middle move after found stepped
  obtain ⟨thread, cases⟩ := step_cases stepped
  cases cases with
  | takes known idle untaken moved => exact moved ▸ found
  | performs busy moved =>
      obtain ⟨added, same⟩ := (interns_perform middle thread _).table
      exact moved ▸ interned_of_append same found
  | ends busy moved => exact moved ▸ found

/--
What `toSymbolRef` returns to any task is what it returns without the caches,
then and at any later time, whatever the caches of the threads had before.
-/
theorem toSymbolRef_returned {graph : NetlistGraph} {locals : Thread → Local}
    (idle : ∀ thread, (locals thread).running = none)
    (identified : ∀ one ∈ symbols tasks, ∀ two ∈ symbols tasks, one.id = two.id → one = two)
    (reached : Reaches (step tasks) { graph := graph, queue := queue, locals := locals } state)
    (later : Reaches (step tasks) state next) :
    ∀ entry ∈ state.returned, (next.graph.toSymbolRef entry.1).1 = entry.2 := by
  have current : Current tasks state := by
    refine reached.invariant ⟨fun thread index ahead busy => ?_, fun entry member => ?_⟩
      fun _ _ _ current stepped => current.step identified stepped
    · simp [idle] at busy
    · cases member
  intro entry member
  exact toSymbolRef_of_interned (interned_of_reaches later (current.returned entry member))

/-! ## Two threads and two tasks -/

def sharedSignal : ValueSymbol :=
  { id := 1, name := "a", hierarchicalPath := "t.a" }

/-- Two blocks that read one signal; the first one interns it twice. -/
def twoTasks : List (Task Unit) :=
  [{ actions := [.toSymbolRef sharedSignal, .enqueue ⟨sharedSignal, ⟨0, 0⟩, 0, none, {}⟩,
      .toSymbolRef sharedSignal] },
    { actions := [.enqueue ⟨sharedSignal, ⟨3, 0⟩, 1, none, {}⟩, .toSymbolRef sharedSignal] }]

/-- The threads have caches from an earlier build, in which the address was of another symbol. -/
def staleLocals : Bool → Local :=
  fun _ => { threadLocalSymbolRefCache := fun _ => some ⟨"b", "u.b", {}⟩ }

/-- The second task overtakes the first one. -/
def overtaking : List (Move Bool) :=
  [.take false 0, .resume false, .take true 1, .resume true, .resume true, .resume true,
    .resume false, .resume false, .resume false]

theorem overtaking_runs : (overtaking.foldlM (step twoTasks)
    ({ locals := staleLocals } : State Unit Bool)).isSome := by
  decide +kernel

def overtakingState : State Unit Bool :=
  (overtaking.foldlM (step twoTasks) { locals := staleLocals }).get overtaking_runs

theorem reaches_overtakingState : Reaches (step twoTasks) { locals := staleLocals }
    overtakingState :=
  ⟨overtaking, .of_foldlM_of_forall (Option.some_get overtaking_runs).symm
    fun _ _ _ _ _ _ => trivial⟩

theorem finish_agrees_overtaking :
    (∀ after, finish twoTasks overtakingState = .ok after ↔
      runPhase2Sequential [] twoTasks = .ok after) ∧
      ∀ error, finish twoTasks overtakingState = .error error →
        ∃ task ∈ twoTasks, task.throws = some error :=
  finish_agrees (fun _ => rfl) reaches_overtakingState ⟨by decide +kernel, by decide +kernel⟩

theorem toSymbolRef_returned_overtaking :
    overtakingState.returned.length = 3 ∧
      ∀ entry ∈ overtakingState.returned,
        (overtakingState.graph.toSymbolRef entry.1).1 = entry.2 :=
  ⟨by decide +kernel,
    toSymbolRef_returned (fun _ => rfl) (by decide +kernel) reaches_overtakingState (.refl _ _)⟩

end SlangNetlist.TaskBuffers
