import ShardStore.Document
import ShardStore.Proofs.Calls.Refused

/-!
# Whole-map calls inside a callback

A thread that is running a callback under the lock of some shard cannot go through all shards: the
first one that it has marked refuses it. Every whole-map call that it makes there fails for this
reason, and cleanly. What fails when is a matter of when a call looks for marks. Counting calls and
calls that read the shards themselves look as they go, so they have counted a request at each shard
in front of the mark. Snapshots look at all shards before anything else, so they have done nothing.
Visits look as they go as well, and the shards in front of the mark have been visited by then.

## What "whatever others do" means

Each statement has two parts. The part `amid` is about the call's own actions, at every point that
it passes through while other threads act in between, and asks of the others only that they leave
the marks and locks of the thread alone (`Threads.Reaches.amid`). The part `alone` says what is left
of the store when no other thread is there.
-/

namespace ShardStore

variable {σ S V α β : Type} {mode : Threading} {n : Nat} {me : ThreadId}
  {scopes : List (Fin n × Access)} {m : Fin n}

/-! ## What failing cleanly is -/

/-- The program requests the shards in front of shard `m` one after another, is refused by shard
`m`, and leaves nothing behind but these requests. -/
structure Program.FailsCounting (me : ThreadId) (scopes : List (Fin n × Access)) (m : Fin n)
    (program : Program mode S V α) : Prop where
  amid : program.process.RefusedAfter me (scopes.map Prod.fst)
    ((shardsBelow m).flatMap Process.captureActs ++ [⟨_, .check m⟩])
  alone : ∀ {σ : Type} (store : Store σ V n) (own : S), store.Inside me scopes →
    ∃ after, program.run me store own = (.unwound .reentrant, after, own) ∧
      after.hasher = store.hasher ∧ after.routing = store.routing ∧
      ∀ i, after.shard i = if i < m then (store.shard i).requested else store.shard i

/-- The program looks for marks on the shards in front of shard `m`, is refused by shard `m`, and
has done nothing else by then. In particular no worker has started that would request a shard. -/
structure Program.FailsUntouched (me : ThreadId) (scopes : List (Fin n × Access)) (m : Fin n)
    (program : Program mode S V α) : Prop where
  amid : program.process.RefusedAfter me (scopes.map Prod.fst)
    ((shardsBelow m).map (fun i => ⟨_, .check i⟩) ++ [⟨_, .check m⟩])
  alone : ∀ {σ : Type} (store : Store σ V n) (own : S), store.Inside me scopes →
    program.run me store own = (.unwound .reentrant, store, own)

/-- Visiting one shard with a callback. -/
abbrev Program.visitingShard (callback : String → V → Program .single S V β) (i : Fin n) :
    Process .single n S V (List ((String × V) × β)) :=
  Process.visitShard (fun key value => (callback key value).process) i

/-- Running the callback on some entries. -/
abbrev Program.visiting (callback : String → V → Program .single S V β)
    (entries : List (String × V)) : Process .single n S V (List ((String × V) × β)) :=
  Process.visitEntries (fun key value => (callback key value).process) entries

/-- Amid others, a visit of shard `i` took the lock and found a table, the callback returned on each
of its entries in order, and the lock was given back. -/
def VisitsFully (me : ThreadId) (callback : String → V → Program .single S V β) (i : Fin n)
    (store : Store σ V n) (own : S) (visited : List ((String × V) × β)) (store' : Store σ V n)
    (own' : S) : Prop :=
  ∃ found left,
    Process.EndsAmid me (Process.request i .shared : Process .single n S V Unit) store own (.ok ())
      found own ∧
    (found.shard i).lock.HeldBy me ∧
    Process.EndsAmid me
      (Process.underMark i .shared (Program.visiting callback (found.table i).toList)) found own
      (.ok visited) left own' ∧
    visited.map Prod.fst = (found.table i).toList ∧
    Process.EndsAmid me (Process.perform (.release i .shared) : Process .single n S V Unit) left
      own' (.ok ()) store' own'

/-- Amid others, a visit of shard `i` took the lock and found a table, and ended with the fault that
the callback unwound with on one of its entries. -/
def VisitStops (me : ThreadId) (callback : String → V → Program .single S V β) (i : Fin n)
    (store : Store σ V n) (own : S) (fault : Fault) (store' : Store σ V n) (own' : S) : Prop :=
  ∃ found,
    Process.EndsAmid me (Process.request i .shared : Process .single n S V Unit) store own (.ok ())
      found own ∧
    (found.shard i).lock.HeldBy me ∧
    Process.EndsAmid me
      (Process.underMark i .shared (Program.visiting callback (found.table i).toList)) found own
      (.error fault) store' own' ∧
    ∃ entry ∈ (found.table i).toList, ∃ (before after : Store σ V n) (own₁ own₂ : S),
      Process.EndsAmid me (callback entry.1 entry.2).process before own₁ (.error fault) after own₂

/-- Amid others, full visits of some shards, one after another. -/
inductive VisitsAll (me : ThreadId) (callback : String → V → Program .single S V β) :
    List (Fin n) → Store σ V n → S → List (List ((String × V) × β)) → Store σ V n → S → Prop where
  | done {store store' : Store σ V n} (own : S) (hothers : store.Meanwhile me store') :
      VisitsAll me callback [] store own [] store' own
  | shard {i : Fin n} {rest : List (Fin n)} {store next after : Store σ V n} {own own' own'' : S}
      {visited : List ((String × V) × β)} {parts : List (List ((String × V) × β))}
      (hshard : VisitsFully me callback i store own visited next own')
      (hrest : VisitsAll me callback rest next own' parts after own'') :
      VisitsAll me callback (i :: rest) store own (visited :: parts) after own''

/-- How a visit ends that shard `m` refuses to its thread. -/
inductive RefusedVisit (me : ThreadId) (callback : String → V → Program .single S V β) (m : Fin n)
    (store : Store σ V n) (own : S) : Fault → Store σ V n → S → Prop where
  /-- The shards in front of `m` are visited fully, and then it is refused. -/
  | refused {parts : List (List ((String × V) × β))} {next after : Store σ V n} {own' : S}
      (hall : VisitsAll me callback (shardsBelow m) store own parts next own')
      (hothers : next.Meanwhile me after) :
      RefusedVisit me callback m store own .reentrant after own'
  /-- A callback unwinds earlier. -/
  | stopped {front behind : List (Fin n)} {i : Fin n} {parts : List (List ((String × V) × β))}
      {next after : Store σ V n} {own' own'' : S} {fault : Fault}
      (hshards : shardsBelow m = front ++ i :: behind)
      (hall : VisitsAll me callback front store own parts next own')
      (hstops : VisitStops me callback i next own' fault after own'') :
      RefusedVisit me callback m store own fault after own''

/-- The visit never returns: it visits the shards in front of shard `m` fully and is then refused,
unless a callback of its own unwinds before. -/
structure Program.FailsVisiting (me : ThreadId) (scopes : List (Fin n × Access)) (m : Fin n)
    (callback : String → V → Program .single S V β) : Prop where
  amid : ∀ {σ : Type} {store store' : Store σ V n} {own own' : S}
    {result : Except Fault (List ((String × V) × β))},
    store.Shows me (Standing.idle.under scopes) →
    Process.EndsAmid me (forEach callback).process store own result store' own' →
    ∃ fault, result = .error fault ∧ RefusedVisit me callback m store own fault store' own'
  alone : ∀ {σ : Type} (store : Store σ V n) (own : S), store.Inside me scopes →
    ∃ fault after own', (forEach callback).run me store own = (.unwound fault, after, own') ∧
      after.Inside me scopes ∧ RefusedVisit me callback m store own fault after own'

/-! ## Calls that count, and snapshots -/

namespace Program

theorem process_ask (operation : Operation V β) :
    (ask operation : Program mode S V β).process (n := n) = operation.process := by
  rw [ask, process, show (fun b : β => (done b : Program mode S V β).process) =
    (Process.done : β → Process mode n S V β) from rfl, Process.bind_done]

/-- What would come after a failing call does not happen. -/
theorem FailsCounting.bind {program : Program mode S V β} (h : program.FailsCounting me scopes m)
    (f : β → Program mode S V α) : (program.bind f).FailsCounting me scopes m where
  amid := by
    rw [process_bind]
    exact h.amid.bind _
  alone {σ} store own hinside := by
    obtain ⟨after, hrun, hafter⟩ := h.alone store own hinside
    refine ⟨after, ?_, hafter⟩
    rw [run_bind, hrun]

theorem FailsUntouched.bind {program : Program mode S V β} (h : program.FailsUntouched me scopes m)
    (f : β → Program mode S V α) : (program.bind f).FailsUntouched me scopes m where
  amid := by
    rw [process_bind]
    exact h.amid.bind _
  alone {σ} store own hinside := by rw [run_bind, h.alone store own hinside]

/-- A call that starts by reading every table fails for a mark. -/
theorem failsCounting_of_captureAll {program : Program mode S V α}
    {rest : List (Table V) → Process mode n S V α}
    (hbody : program.process = Process.captureAll.bind rest) (hm : m ∈ scopes.map Prod.fst)
    (hleast : ∀ i ∈ scopes.map Prod.fst, m ≤ i) : program.FailsCounting me scopes m where
  amid := by
    rw [hbody]
    exact Process.refusedAfter_captureAll hm hleast rest
  alone {σ} store own h := by
    obtain ⟨hpassed, hrefusal⟩ := h.passed_finRange hm hleast
    refine ⟨store.requestAll (shardsBelow m), ?_, Store.hasher_requestAll ..,
      Store.routing_requestAll .., fun i => ?_⟩
    · rw [run, hbody, Process.run_bind_of_unless (Process.run_captureAll_inside h own), hpassed,
        hrefusal]
      rfl
    · rw [Store.shard_requestAll]
      split
      · next hlt =>
        rw [List.count_eq_one_of_mem (nodup_shardsBelow m) (mem_shardsBelow.mpr hlt)]
        rfl
      · next hnot =>
        rw [List.count_eq_zero_of_not_mem fun hmem => hnot (mem_shardsBelow.mp hmem)]
        rfl

/-- Counting, and every call that starts by counting or by reading every table. -/
theorem failsCounting_of_ask {operation : Operation V β}
    {rest : List (Table V) → Process mode n S V β}
    (hbody : operation.process = Process.captureAll.bind rest) (hm : m ∈ scopes.map Prod.fst)
    (hleast : ∀ i ∈ scopes.map Prod.fst, m ≤ i) :
    (ask operation : Program mode S V β).FailsCounting me scopes m :=
  failsCounting_of_captureAll ((process_ask operation).trans hbody) hm hleast

/-- Opening a snapshot fails for a mark. -/
theorem snapshot_failsUntouched (hm : m ∈ scopes.map Prod.fst)
    (hleast : ∀ i ∈ scopes.map Prod.fst, m ≤ i) :
    (snapshot : Program mode S V (Snapshot V)).FailsUntouched me scopes m where
  amid := by
    rw [snapshot, process_ask]
    exact (Process.refusedAfter_checkAll hm hleast _).bind _
  alone {σ} store own h := by
    rw [snapshot, run_ask]
    exact Process.run_collectAll_bind_refused (h.passed_finRange hm hleast).2 _ own

end Program

/-! ## Visits -/

section visits

variable {store store' : Store σ V n} {own own' : S}
  {callback : String → V → Program .single S V β}

namespace Process

/-- Calling back for entries amid others: it returns after all of them, in order, and unwinds with
the fault of one of them. -/
theorem EndsAmid.of_visiting {entries : List (String × V)}
    {result : Except Fault (List ((String × V) × β))}
    (h : EndsAmid me (Program.visiting callback entries) store own result store' own') :
    (∀ visited, result = .ok visited → visited.map Prod.fst = entries) ∧
      ∀ fault, result = .error fault → ∃ entry ∈ entries,
        ∃ (before after : Store σ V n) (own₁ own₂ : S),
          EndsAmid me (callback entry.1 entry.2).process before own₁ (.error fault) after own₂ := by
  induction entries generalizing store own store' own' result with
  | nil =>
    obtain ⟨rfl, -, -⟩ := EndsAmid.of_done h
    refine ⟨fun visited heq => ?_, fun fault heq => by cases heq⟩
    cases heq
    rfl
  | cons entry rest ih =>
    have hbody : (Program.visiting callback (entry :: rest) : Process .single n S V _) =
        (callback entry.1 entry.2).process.bind fun b =>
          (Program.visiting callback rest).bind fun visited => .done ((entry, b) :: visited) := by
      rw [Program.visiting, visitEntries, List.mapM_cons]
      simp only [bind_eq, pure_eq, bind_assoc, bind]
      rfl
    rw [hbody] at h
    rcases h.of_bind with ⟨fault, rfl, hcall⟩ | ⟨b, store₁, own₁, -, hrest⟩
    · refine ⟨fun visited heq => ?_, fun fault' heq => ?_⟩ <;> cases heq
      exact ⟨entry, List.mem_cons_self, _, _, _, _, hcall⟩
    · rcases hrest.of_bind with ⟨fault, rfl, hvisiting⟩ | ⟨visited, store₂, own₂, hvisiting, hdone⟩
      · refine ⟨fun visited heq => (by cases heq), fun fault' heq => ?_⟩
        obtain ⟨entry', hmem, hcall⟩ := (ih hvisiting).2 fault' heq
        exact ⟨entry', List.mem_cons_of_mem _ hmem, hcall⟩
      · obtain ⟨rfl, -, -⟩ := hdone.of_done
        refine ⟨fun visited' heq => ?_, fun fault heq => by cases heq⟩
        cases heq
        exact congrArg (List.cons entry) ((ih hvisiting).1 visited rfl)

/-- A request amid others is refused if its thread has marked the shard, and ends with the lock if
not. -/
theorem EndsAmid.of_request {i : Fin n} {access : Access} {result : Except Fault Unit}
    (h : EndsAmid me (request i access : Process .single n S V Unit) store own result store' own')
    (hshows : store.Shows me (Standing.idle.under scopes)) :
    i ∈ scopes.map Prod.fst ∧ result = .error .reentrant ∧ own' = own ∧ store.Meanwhile me store' ∨
      i ∉ scopes.map Prod.fst ∧ result = .ok () ∧ own' = own ∧ (store'.shard i).lock.HeldBy me := by
  have hends := h
  have hbody : (request i access : Process .single n S V Unit) =
      (perform (.check i)).bind fun _ => (perform (.bump i .acquisitions)).bind fun _ =>
        (perform (.acquire i access)).bind .done := rfl
  rw [hbody] at h
  obtain ⟨_, checked, after, hothers, hcheck, h⟩ |
      ⟨fault, checked, after, hothers, hcheck, rfl, hown, hafter⟩ := h.of_perform_bind
  · -- No mark was found, so the request is counted and granted in the end.
    have hi : i ∉ scopes.map Prod.fst := by
      intro hmem
      have hmark := ((hshows.meanwhile hothers).mem_markers_iff i).mpr hmem
      rw [Action.perform, if_pos hmark] at hcheck
      cases hcheck
    obtain ⟨_, _, counted, -, hbump, h⟩ | ⟨fault, _, _, -, hbump, -⟩ := h.of_perform_bind
    · cases hbump
      obtain ⟨_, asked, granted, -, hacquire, h⟩ | ⟨fault, asked, _, -, hacquire, -⟩ :=
        h.of_perform_bind
      · obtain ⟨rfl, rfl, -⟩ := h.of_done
        obtain ⟨acts, p', hamid, hended⟩ := hends
        obtain ⟨standing, hkeeps, hshows'⟩ := (keeps_request i access).amid hshows hamid
        obtain ⟨_, -, rfl⟩ | ⟨fault, hfault, -⟩ := eq_of_ended? hended
        · obtain rfl | ⟨-, hfinal⟩ := hkeeps
          · refine .inr ⟨hi, rfl, rfl, ?_⟩
            exact (hshows'.heldBy_iff i).mpr List.mem_cons_self
          · cases hfinal
        · cases hfault
      · simp only [Action.perform] at hacquire
        split at hacquire <;> cases hacquire
    · cases hbump
  · have hmark : me ∈ (checked.shard i).markers := by
      by_contra hclear
      rw [Action.perform, if_neg hclear] at hcheck
      cases hcheck
    rw [Action.perform, if_pos hmark] at hcheck
    cases hcheck
    have hmem := ((hshows.meanwhile hothers).mem_markers_iff i).mp hmark
    exact .inl ⟨hmem, rfl, hown, hothers.trans hafter⟩

/-- A visit of a shard that its thread has not marked. -/
theorem EndsAmid.of_visitShard {i : Fin n} {result : Except Fault (List ((String × V) × β))}
    (h : EndsAmid me (Program.visitingShard callback i) store own result store' own')
    (hshows : store.Shows me (Standing.idle.under scopes)) (hi : i ∉ scopes.map Prod.fst) :
    (∃ visited, result = .ok visited ∧ VisitsFully me callback i store own visited store' own') ∨
      ∃ fault, result = .error fault ∧ VisitStops me callback i store own fault store' own' := by
  have hbody : Program.visitingShard callback i =
      (request i .shared).bind fun _ => (perform (.load i)).bind fun table =>
        (underMark i .shared (Program.visiting callback table.toList)).bind fun visited =>
          (perform (.release i .shared)).bind fun _ => .done visited := rfl
  rw [hbody] at h
  rcases h.of_bind with ⟨fault, rfl, hrequest⟩ | ⟨_, locked, own₁, hrequest, hrest⟩
  · obtain ⟨hmem, -⟩ | ⟨-, hok, -⟩ := hrequest.of_request hshows
    · exact (hi hmem).elim
    · cases hok
  obtain ⟨hmem, -⟩ | ⟨-, -, rfl, hheld⟩ := hrequest.of_request hshows
  · exact (hi hmem).elim
  obtain ⟨table, found, after, hothers, hload, hrest⟩ | ⟨fault, found, after, -, hload, -⟩ :=
    hrest.of_perform_bind
  · -- The table that is read is the one that is there, whatever others did since the request.
    cases hload
    have hrequest' := hrequest.others hothers
    obtain ⟨hmem, -⟩ | ⟨-, -, -, hheld'⟩ := hrequest'.of_request hshows
    · exact (hi hmem).elim
    rcases hrest.of_bind with ⟨fault, rfl, hcalls⟩ | ⟨visited, left, own₂, hcalls, hrest⟩
    · obtain ⟨before, after, own₂, hvisiting⟩ := hcalls.of_underMark
      exact .inr ⟨fault, rfl, found, hrequest', hheld', hcalls, hvisiting.of_visiting.2 fault rfl⟩
    · obtain ⟨before, after, own₃, hvisiting⟩ := hcalls.of_underMark
      have hentries := hvisiting.of_visiting.1 visited rfl
      obtain ⟨_, held, free, hothers', hrelease, hrest⟩ | ⟨fault, _, _, -, hrelease, -⟩ :=
        hrest.of_perform_bind
      · obtain ⟨rfl, rfl, hafter⟩ := hrest.of_done
        exact .inl ⟨visited, rfl, found, left, hrequest', hheld', hcalls, hentries,
          endsAmid_perform _ hothers' hrelease hafter⟩
      · cases hrelease
  · cases hload

/-- Visits of some shards that their thread has not marked, one after another. -/
theorem EndsAmid.of_mapM_visitShard {shards : List (Fin n)}
    {result : Except Fault (List (List ((String × V) × β)))}
    (h : EndsAmid me (shards.mapM (Program.visitingShard callback)) store own result store' own')
    (hshows : store.Shows me (Standing.idle.under scopes))
    (hshards : ∀ i ∈ shards, i ∉ scopes.map Prod.fst) :
    (∃ parts, result = .ok parts ∧ VisitsAll me callback shards store own parts store' own') ∨
      ∃ front i behind parts next own₁ fault, shards = front ++ i :: behind ∧
        VisitsAll me callback front store own parts next own₁ ∧
        result = .error fault ∧ VisitStops me callback i next own₁ fault store' own' := by
  induction shards generalizing store store' own own' result with
  | nil =>
    obtain ⟨rfl, rfl, hothers⟩ := EndsAmid.of_done h
    exact .inl ⟨[], rfl, .done own' hothers⟩
  | cons i rest ih =>
    have hkeeps : (Program.visitingShard callback i).Keeps .idle .idle :=
      keeps_visitShard (fun key value => (callback key value).keeps_process) i
    have hi := hshards i List.mem_cons_self
    rw [List.mapM_cons, bind_eq] at h
    rcases h.of_bind with ⟨fault, rfl, hshard⟩ | ⟨visited, next, own₁, hshard, hrest⟩
    · obtain ⟨visited, hok, -⟩ | ⟨fault', herror, hstops⟩ := hshard.of_visitShard hshows hi
      · cases hok
      · cases herror
        exact .inr ⟨[], i, rest, [], store, own, fault, rfl, .done own (.refl store me), rfl,
          hstops⟩
    · obtain ⟨visited', hok, hfully⟩ | ⟨fault, herror, -⟩ := hshard.of_visitShard hshows hi
      · cases hok
        have hshows' := hkeeps.shows_of_endsAmid hshows hshard
        have hbehind : ∀ j ∈ rest, j ∉ scopes.map Prod.fst := fun j hj =>
          hshards j (List.mem_cons_of_mem _ hj)
        rw [bind_eq] at hrest
        rcases hrest.of_bind with ⟨fault, rfl, hvisits⟩ | ⟨parts, next', own₂, hvisits, hdone⟩
        · obtain ⟨parts, hok, -⟩ | ⟨front, j, behind, parts, last, own₂, fault', heq, hall, herror,
            hstops⟩ := ih hvisits hshows' hbehind
          · cases hok
          · subst heq
            exact .inr ⟨i :: front, j, behind, visited :: parts, last, own₂, fault', rfl,
              .shard hfully hall, herror, hstops⟩
        · obtain ⟨rfl, rfl, hothers⟩ := EndsAmid.of_done hdone
          obtain ⟨parts', hok, hall⟩ | ⟨front, j, behind, -, -, -, fault, -, -, herror, -⟩ :=
            ih (hvisits.others hothers) hshows' hbehind
          · cases hok
            exact .inl ⟨_, rfl, .shard hfully hall⟩
          · cases herror
      · cases herror

end Process

/-- A visit fails for a mark. -/
theorem Program.forEach_failsVisiting (me : ThreadId)
    (callback : String → V → Program .single S V β) (hm : m ∈ scopes.map Prod.fst)
    (hleast : ∀ i ∈ scopes.map Prod.fst, m ≤ i) : FailsVisiting me scopes m callback := by
  have hfront : ∀ i ∈ shardsBelow m, i ∉ scopes.map Prod.fst := fun i hi hscope =>
    absurd (hleast i hscope) (not_le.mpr (mem_shardsBelow.mp hi))
  have hamid {σ : Type} {store store' : Store σ V n} {own own' : S}
      {result : Except Fault (List ((String × V) × β))}
      (hshows : store.Shows me (Standing.idle.under scopes))
      (hends : Process.EndsAmid me (forEach callback).process store own result store' own') :
      ∃ fault, result = .error fault ∧ RefusedVisit me callback m store own fault store' own' := by
    -- The visits in front of shard `m` come first, then its request.
    obtain ⟨rest, hbody⟩ : ∃ rest : List (List ((String × V) × β)) → Unit → Process .single n S V _,
        (forEach callback).process =
          ((shardsBelow m).mapM (visitingShard callback)).bind fun parts =>
            (Process.request m .shared).bind (rest parts) := by
      have hvisit : (forEach callback).process =
          ((List.finRange n).mapM (visitingShard callback)).bind
            fun visited => .done visited.flatten := Process.bind_done _
      rw [hvisit, finRange_eq_shardsBelow m, List.mapM_append, List.mapM_cons]
      simp only [Process.bind_eq, Process.bind_assoc]
      exact ⟨_, rfl⟩
    rw [hbody] at hends
    rcases hends.of_bind with ⟨fault, rfl, hvisits⟩ | ⟨parts, next, own₁, hvisits, hrest⟩
    · obtain ⟨parts, hok, -⟩ |
          ⟨front, i, behind, parts, last, own₁, fault', heq, hall, herror, hstops⟩ :=
        hvisits.of_mapM_visitShard hshows hfront
      · cases hok
      · cases herror
        exact ⟨fault, rfl, .stopped heq hall hstops⟩
    · obtain ⟨parts', hok, hall⟩ | ⟨-, -, -, -, -, -, fault, -, -, herror, -⟩ :=
        hvisits.of_mapM_visitShard hshows hfront
      · have hkeeps : ((shardsBelow m).mapM (visitingShard callback) :
            Process .single n S V _).Keeps .idle .idle :=
          Process.keeps_mapM (Process.keeps_visitShard fun key value =>
            (callback key value).keeps_process) _
        have hshows' := hkeeps.shows_of_endsAmid hshows hvisits
        rcases hrest.of_bind with ⟨fault, rfl, hrequest⟩ | ⟨_, locked, own₂, hrequest, -⟩
        · obtain ⟨-, hrefused, rfl, hothers⟩ | ⟨hnot, -⟩ := hrequest.of_request hshows'
          · cases hrefused
            exact ⟨.reentrant, rfl, .refused hall hothers⟩
          · exact (hnot hm).elim
        · obtain ⟨-, hrefused, -⟩ | ⟨hnot, -⟩ := hrequest.of_request hshows'
          · cases hrefused
          · exact (hnot hm).elim
      · cases herror
  refine ⟨hamid, fun store own hinside => ?_⟩
  obtain ⟨hnot, hafter, -⟩ := (forEach callback).keeps_process.run_inside hinside own
  obtain ⟨p', hreaches, hends⟩ := Process.exists_reaches_run me (forEach callback).process store own
  obtain ⟨acts, hpoint⟩ := hreaches.amid
  rcases hrun : (forEach callback).process.run me store own with ⟨outcome, after, own'⟩
  rw [hrun] at hnot hafter hends hpoint
  cases outcome with
  | returned visited =>
    obtain rfl : p' = .done visited := hends
    obtain ⟨fault, herror, -⟩ := hamid hinside.shows ⟨acts, _, hpoint, rfl⟩
    cases herror
  | unwound fault =>
    obtain rfl : p' = .unwind fault := hends
    obtain ⟨fault', herror, hvisit⟩ := hamid hinside.shows ⟨acts, _, hpoint, rfl⟩
    cases herror
    exact ⟨fault, after, own', hrun, hafter, hvisit⟩
  | blocked => exact absurd rfl hnot

end visits

/-! ## The statement -/

/-- How the whole-map calls fail that thread `me` makes inside its callbacks, of which that under
the lock of shard `m` is the one of the first shard. -/
structure Program.WholeMapCallsFail (mode : Threading) (S V : Type) (me : ThreadId)
    (scopes : List (Fin n × Access)) (m : Fin n) : Prop where
  count : (count : Program mode S V Nat).FailsCounting me scopes m
  isEmpty : (isEmpty : Program mode S V Bool).FailsCounting me scopes m
  items : (items : Program mode S V (Table V)).FailsCounting me scopes m
  keys : (keys : Program mode S V (List String)).FailsCounting me scopes m
  stats : (stats : Program mode S V Stats).FailsCounting me scopes m
  snapshot : (snapshot : Program mode S V (Snapshot V)).FailsUntouched me scopes m
  toJson : ∀ layout encode,
    (toJson layout encode : Program mode S V (Except Error String)).FailsUntouched me scopes m
  toValue : ∀ encode,
    (toValue encode : Program mode S V (Except Refusal Json)).FailsUntouched me scopes m
  visits : ∀ {β : Type} (callback : String → V → Program .single S V β),
    FailsVisiting me scopes m callback

/-- **Whole-map calls inside a callback always fail, and cleanly**, however deep the callbacks are
nested and whatever other threads do meanwhile. Counting, listing and statistics leave one more
counted request at each shard in front of the first one that the thread has marked, snapshots and
the encoders leave nothing, and a visit goes through the shards in front of that one before it is
refused, unless a callback of its own unwinds earlier. None of them returns. -/
theorem Program.whole_map_calls_fail_inside (mode : Threading) (S V : Type) (me : ThreadId)
    (hm : m ∈ scopes.map Prod.fst) (hleast : ∀ i ∈ scopes.map Prod.fst, m ≤ i) :
    WholeMapCallsFail mode S V me scopes m := by
  have hcount : (count : Program mode S V Nat).FailsCounting me scopes m :=
    failsCounting_of_ask rfl hm hleast
  have hwritten (form : Form) (encode : V → Encoding) :
      (writtenMembers form encode : Program mode S V _).FailsUntouched me scopes m :=
    (snapshot_failsUntouched hm hleast).bind _
  exact
    { count := hcount
      isEmpty := hcount.bind _
      items := failsCounting_of_ask (Process.bind_assoc ..) hm hleast
      keys := failsCounting_of_ask (Process.bind_assoc ..) hm hleast
      stats := failsCounting_of_ask rfl hm hleast
      snapshot := snapshot_failsUntouched hm hleast
      toJson := fun _ encode => ((hwritten .text encode).bind _).bind _
      toValue := fun encode => (hwritten .value encode).bind _
      visits := fun callback => forEach_failsVisiting me callback hm hleast }

/-- Three shards, the first of which is in no scope: a visit of the last one and, around it, an
update in the second one. Counting is refused by the second one. -/
theorem Program.whole_map_calls_fail_inside_nested :
    let config : Config Unit := { shardCount := 3 }
    let scopes : List (Fin config.shards × Access) :=
      [(⟨2, by decide⟩, .shared), (⟨1, by decide⟩, .exclusive)]
    ∃ store : Store Unit Nat config.shards, Store.ofConfig config = .ok store ∧
      let inside := (store.modify ⟨1, by decide⟩ (Shard.opened ⟨0, 0⟩ .exclusive)).modify
        ⟨2, by decide⟩ (Shard.opened ⟨0, 0⟩ .shared)
      inside.Inside ⟨0, 0⟩ scopes ∧
      ((count : Program .single Unit Nat Nat).run ⟨0, 0⟩ inside ()).1 = .unwound .reentrant ∧
      WholeMapCallsFail .single Unit Nat ⟨0, 0⟩ scopes ⟨1, by decide⟩ := by
  intro config scopes
  obtain ⟨store, hstore⟩ : ∃ store : Store Unit Nat config.shards,
      Store.ofConfig config = .ok store := ⟨_, rfl⟩
  have hrest : store.Inside ⟨0, 0⟩ [] := Store.inside_nil_iff.mpr (Store.atRest_of_ofConfig hstore)
  have hupdate : (store.modify ⟨1, by decide⟩ (Shard.opened ⟨0, 0⟩ .exclusive)).Inside ⟨0, 0⟩
      [(⟨1, by decide⟩, .exclusive)] := hrest.opened List.not_mem_nil
  have hnot : (⟨2, by decide⟩ : Fin config.shards) ∉
      [((⟨1, by decide⟩ : Fin config.shards), Access.exclusive)].map Prod.fst := by decide
  refine ⟨store, hstore, hupdate.opened hnot, ?_,
    whole_map_calls_fail_inside .single Unit Nat ⟨0, 0⟩ (by decide) (by decide)⟩
  cases hstore
  decide +kernel

end ShardStore
