import EntangledMPI.Mpi.IgnoreMap
import EntangledMPI.Mpi.MapText

/-!
# What `parse_map_file` checks

Two asserts look at a row before it is stored: its job id has to be below the number of jobs, and
its number of workers positive. They do not see an id that is negative or was there before, a rank
that is negative, twice in the map or beyond `rank_2_job`, which keeps the size of the first map,
and they do not see that the file has ended. Then `fscanf` assigns nothing: the ids of a row are
indeterminate, and a worker is the one before it once more.

## Main result

`Process.parseSound_iff`: a call is stopped by an assert or fills all tables as the map says exactly
when the rows in front of the first one an assert stops keep to the tables and, if there is no such
row, list every job and no rank twice.
-/

namespace EntangledMPI

open CountingLoop TextInput

/-! ## What a call is to do -/

namespace Process

/-- The state of `parse_map_file` behind its first `k` rows. -/
def parseRows (s : Process) (text : Text) (k : ℕ) : Except Fault (ParseState Text) := do
  let (numbers, text) := fscanf [.decimal, .space, .decimal] text
  let (cores, numbers) := scanInt numbers none
  let (jobs, _) := scanInt numbers none
  let rank2Job ← allocRank2Job s.rank2Job cores
  let jobs ← valueOf jobs
  loop (ParseState.turn fscanf jobs) k
    ⟨text, s.node.reset, List.replicate jobs.toNat Job.unset, rank2Job⟩

/-- Row `k` is one of job `i`. -/
def Fills (s : Process) (text : Text) (k i : ℕ) : Prop :=
  ∃ t, s.parseRows text k = .ok t ∧
    (fscanf [.decimal, .space, .decimal, .space, .decimal, .space] t.fields).1[1]? = some (i : ℤ)

/-- The tables `s'` after a call say what the map says. -/
structure MapRead (s' s : Process) (text : Text) : Prop where
  jobs : ∀ jobs, (fscanf [.decimal, .space, .decimal] text).1[1]? = some jobs →
    s'.jobList.length = jobs.toNat
  /-- Every entry of `job_list` is filled by one row. -/
  filled : ∀ i < s'.jobList.length, ∃! k, k < s'.jobList.length ∧ s.Fills text k i
  nodup : (s'.jobList.flatMap Job.workers).Nodup
  rank2Job : ∀ q ∈ s'.jobList.flatMap Job.workers, ∀ i, readRank2Job s'.rank2Job q = .ok i ↔
    ∃ job, s'.jobList[i]? = some job ∧ q ∈ job.workers

/-- A call that reads the map is stopped by an assert, or returns with the tables of the map; every
write has stayed within its array then, and every number it used had been read. -/
def ParseSound (s : Process) (text : Text) : Prop :=
  s.parseMapText text = .error .assertFailed ∨
    ∃ s', s.parseMapText text = .ok s' ∧ s'.MapRead s text

/-- `rank_2_job` during a call, before the first row. -/
def startTable (s : Process) (cores : ℤ) : Table :=
  match s.rank2Job with
  | none => ⟨cores.toNat, fun _ ↦ 0⟩
  | some table => table

end Process

/-! ## The numbers of a map -/

/-- The row `e` of the job `e.1` keeps to the tables. -/
structure KeepsTo (jobs : ℤ) (size : ℕ) (e : ℕ × MapLine) : Prop where
  id : (e.1 : ℤ) < jobs
  workers : e.2.workers ≠ []
  ranks : ∀ r ∈ e.2.workers, r < size

/-- An assert stops the row at the front of the numbers. -/
def AssertFires (jobs : ℤ) (numbers : List ℤ) : Prop :=
  ∃ updateBit jId rest, numbers = updateBit :: jId :: rest ∧
    (jobs ≤ jId ∨ ∃ wC rest', rest = wC :: rest' ∧ wC ≤ 0)

/-- The numbers begin with the rows `entries`, which keep to the tables. -/
structure BeginsWith (jobs : ℤ) (size : ℕ) (numbers : List ℤ) (entries : List (ℕ × MapLine))
    (rest : List ℤ) : Prop where
  numbers : numbers = entries.flatMap (fun e ↦ e.2.fields e.1) ++ rest
  keeps : ∀ e ∈ entries, KeepsTo jobs size e

/-- What the numbers behind the first two have to be: rows that keep to the tables, either one for
each job and without a rank twice, or up to one that an assert stops. -/
inductive Guarded (jobs : ℤ) (size : ℕ) (numbers : List ℤ) : Prop
  | lists (entries : List (ℕ × MapLine)) (rest : List ℤ)
      (h : BeginsWith jobs size numbers entries rest)
      (ids : (entries.map Prod.fst).Perm (List.range jobs.toNat))
      (nodup : (entries.flatMap fun e ↦ e.2.workers).Nodup)
  | stops (entries : List (ℕ × MapLine)) (rest : List ℤ)
      (h : BeginsWith jobs size numbers entries rest) (hlt : entries.length < jobs.toNat)
      (fires : AssertFires jobs rest)

/-! ## A text of integers is its numbers -/

theorem ScansAll.inStep : Scanner.InStep fscanf scanNumbers fun _ _ ↦ ScansAll where
  row := by
    intro n text fields hscan
    obtain ⟨text', htext, hscan'⟩ :=
      hscan.fscanf [.decimal, .space, .decimal, .space, .decimal, .space]
    exact ⟨_, text', _, htext, rfl, fun _ _ ↦ hscan'⟩
  worker := by
    intro n m text fields hscan
    obtain ⟨text', htext, hscan'⟩ := hscan.fscanf [.space, .decimal]
    exact ⟨_, text', _, htext, rfl, hscan'⟩

namespace Process

variable {s : Process} {text : Text} {cores jobs : ℤ} {rows : List ℤ}

/-- Where the loop over the rows begins. -/
def parseStart (s : Process) (cores jobs : ℤ) (rows : List ℤ) : ParseState (List ℤ) :=
  ⟨rows, s.node.reset, List.replicate jobs.toNat Job.unset, some (s.startTable cores)⟩

theorem allocRank2Job_eq (s : Process) (cores : ℤ) :
    allocRank2Job s.rank2Job (some cores) = .ok (some (s.startTable cores)) := by
  rw [startTable]
  cases s.rank2Job <;> rfl

theorem fscanf_header {numbers : List ℤ} (h : ScansAll text numbers) : ∃ text',
    fscanf [.decimal, .space, .decimal] text = (numbers.take 2, text') ∧
      ScansAll text' (numbers.drop 2) := h.fscanf _

theorem parseRows_sameOutcome (s : Process) (h : ScansAll text (cores :: jobs :: rows)) (k : ℕ) :
    SameOutcome (ParseState.Same ScansAll) (s.parseRows text k)
      (loop (ParseState.turn scanNumbers jobs) k (s.parseStart cores jobs rows)) := by
  obtain ⟨text', htext, hscan⟩ := fscanf_header h
  have hstart : ParseState.Same ScansAll ⟨text', s.node.reset,
      List.replicate jobs.toNat Job.unset, some (s.startTable cores)⟩
      (s.parseStart cores jobs rows) := ⟨hscan, rfl, rfl, rfl⟩
  rw [parseRows, htext]
  simp only [List.take_succ_cons, List.take_zero, scanInt, allocRank2Job_eq, valueOf,
    except_ok_bind]
  exact hstart.loop ScansAll.inStep (le_refl k)

theorem fills_iff (h : ScansAll text (cores :: jobs :: rows)) {k i : ℕ} : s.Fills text k i ↔
    ∃ t, loop (ParseState.turn scanNumbers jobs) k (s.parseStart cores jobs rows) = .ok t ∧
      t.fields[1]? = some (i : ℤ) := by
  have hsame := s.parseRows_sameOutcome h k
  have hfront : ∀ {a : ParseState Text} {t : ParseState (List ℤ)}, a.Same ScansAll t →
      (fscanf [.decimal, .space, .decimal, .space, .decimal, .space] a.fields).1[1]?
        = t.fields[1]? := by
    intro a t hat
    obtain ⟨text', htext, -⟩ :=
      hat.fields.fscanf [.decimal, .space, .decimal, .space, .decimal, .space]
    rw [htext]
    exact List.getElem?_take_of_lt (by decide)
  constructor
  · rintro ⟨a, ha, hi⟩
    obtain ⟨t, ht, hat⟩ := hsame.exists_right ha
    exact ⟨t, ht, (hfront hat).symm.trans hi⟩
  · rintro ⟨t, ht, hi⟩
    obtain ⟨a, ha, hat⟩ := hsame.exists_left ht
    exact ⟨a, ha, (hfront hat).trans hi⟩

theorem parseMapText_eq_loop (h : ScansAll text (cores :: jobs :: rows))
    (hckpt : s.ckptRestore = .no) (hcount : s.node.jobsCount ≤ s.jobList.length) :
    s.parseMapText text
      = (loop (ParseState.turn scanNumbers jobs) jobs.toNat (s.parseStart cores jobs rows)).map
          fun t ↦ { s with node := t.node, jobList := t.jobList, rank2Job := t.rank2Job } := by
  obtain ⟨text', htext, hscan⟩ := fscanf_header h
  have hnumbers : s.parseMapText text = s.parseMapFile (cores :: jobs :: rows) := by
    refine ScansAll.inStep.parseMap_eq s htext (scanNumbers_header cores jobs rows) ?_
    intro n hn
    exact hscan
  rw [hnumbers, parseMapFile, parseMap, if_neg (by simp [hckpt]), scanNumbers_header]
  simp only [scanInt, allocRank2Job_eq, valueOf, except_ok_bind, not_lt.mpr hcount, if_false]
  rfl

/-- Where the first line has no number of jobs, that is indeterminate. -/
theorem exists_fault_of_short {numbers : List ℤ} (h : ScansAll text numbers)
    (hckpt : s.ckptRestore = .no) (hshort : numbers.length < 2) :
    ∃ e, s.parseMapText text = .error e ∧ e ≠ .assertFailed := by
  obtain ⟨text', htext, -⟩ := fscanf_header h
  have hjobs : (scanInt (scanInt (numbers.take 2) none).2 none).1 = none := by
    rcases numbers with _ | ⟨cores, _ | ⟨jobs, rows⟩⟩
    · rfl
    · rfl
    · exact absurd hshort (by simp)
  rw [parseMapText, parseMap, if_neg (by simp [hckpt]), htext]
  simp only [hjobs, valueOf]
  -- the old lists are freed first, then the tables are allocated, then the number is used
  split
  · exact ⟨.outOfBounds, rfl, by simp⟩
  · cases halloc : allocRank2Job s.rank2Job (scanInt (numbers.take 2) none).1 with
    | ok rank2Job => exact ⟨.indeterminate, rfl, by simp⟩
    | error e =>
      refine ⟨.indeterminate, ?_, by simp⟩
      have he : e = .indeterminate := by
        revert halloc
        cases s.rank2Job with
        | some table => exact fun halloc ↦ absurd halloc (by simp [allocRank2Job])
        | none =>
          cases (scanInt (numbers.take 2) none).1 with
          | none => exact fun halloc ↦ (Except.error.inj halloc).symm
          | some cores =>
            exact fun halloc ↦ absurd halloc (by simp [allocRank2Job, valueOf, Except.map])
      rw [he]
      rfl

end Process

/-! ## One row -/

theorem eq_some_of_valueOf {x : Option ℤ} {v : ℤ} (h : valueOf x = .ok v) : x = some v := by
  cases x with
  | none => exact absurd h (by simp [valueOf])
  | some x => exact congrArg some (Except.ok.inj h)

theorem eq_natCast_of_indexOf {x : ℤ} {k : ℕ} (h : indexOf x = .ok k) : x = k := by
  rw [indexOf] at h
  split at h
  next => exact absurd h (by simp)
  next hx => rw [← Except.ok.inj h, Int.toNat_of_nonneg (not_lt.mp hx)]

theorem eq_set_of_writeAt {α : Type*} {l l' : List α} {i : ℕ} {a : α}
    (h : writeAt l i a = .ok l') : i < l.length ∧ l' = l.set i a := by
  rw [writeAt] at h
  split at h
  next hi => exact ⟨hi, (Except.ok.inj h).symm⟩
  next => exact absurd h (by simp)

theorem exists_of_writeRank2Job {table : Table} {rank job : ℕ} {rank2Job : Option Table}
    (h : writeRank2Job (some table) rank job = .ok rank2Job) :
    rank < table.size ∧ ∃ table', rank2Job = some table' ∧ table'.size = table.size := by
  rw [writeRank2Job] at h
  by_cases hrank : rank < table.size
  · rw [Table.write_of_lt hrank] at h
    exact ⟨hrank, _, (Except.ok.inj h).symm, rfl⟩
  · exact absurd h (by simp [Table.write, hrank, Except.map])

section Row

variable {jobs updateBit jId wC : ℤ} {size id w : ℕ} {g : List ℤ}

/-- What the loop over the workers of a row has read before turn `m` from the numbers `g`: behind
the last of them it reads that one again. -/
structure RowState.Reads (g : List ℤ) (size id w m : ℕ) (s : RowState (List ℤ)) : Prop where
  fields : s.fields = g.drop m
  wRank : s.wRank = if m = 0 then none else g[min (m - 1) (g.length - 1)]?
  table : ∃ table, s.rank2Job = some table ∧ table.size = size
  entry : ∃ ranks : List ℕ, s.jobList[id]? = some ⟨id, w, ranks⟩ ∧ ranks.length = w ∧
    ∀ j < m, ∃ r < size, g[min j (g.length - 1)]? = some (r : ℤ) ∧ ranks[j]? = some r

theorem RowState.Reads.scanInt_eq {m : ℕ} {s : RowState (List ℤ)} (h : s.Reads g size id w m) :
    (scanInt (s.fields.take 1) s.wRank).1 = g[min m (g.length - 1)]? := by
  rw [h.fields, h.wRank]
  by_cases hm : m < g.length
  · have hmin : min m (g.length - 1) = m := by omega
    rw [List.drop_eq_getElem_cons hm, hmin, List.getElem?_eq_getElem hm]
    rfl
  · rw [List.drop_eq_nil_of_le (not_lt.mp hm)]
    by_cases hzero : m = 0
    · obtain rfl : g = [] := List.length_eq_zero_iff.mp (by omega)
      simp [scanInt, hzero]
    · rw [if_neg hzero, min_eq_right (by omega), min_eq_right (by omega)]
      rfl

theorem RowState.Reads.turn (hid : jId = id) {m : ℕ} (hm : m < w)
    {s s' : RowState (List ℤ)} (h : s.Reads g size id w m)
    (hturn : s.turn scanNumbers jobs updateBit jId wC m = .ok s') :
    s'.Reads g size id w (m + 1) := by
  obtain ⟨ranks, hget, hlength, hread⟩ := h.entry
  obtain ⟨table, htable, hsize⟩ := h.table
  have hnumber := h.scanInt_eq
  rw [RowState.turn] at hturn
  obtain ⟨x, hx, hturn⟩ := except_bind_eq_ok.mp hturn
  obtain ⟨job, hjob, hturn⟩ := except_bind_eq_ok.mp hturn
  obtain ⟨rank, hrank, hturn⟩ := except_bind_eq_ok.mp hturn
  obtain ⟨rank2Job, hwrite, hturn⟩ := except_bind_eq_ok.mp hturn
  obtain ⟨entry, hentry, hturn⟩ := except_bind_eq_ok.mp hturn
  obtain ⟨rankList, hlist, hturn⟩ := except_bind_eq_ok.mp hturn
  obtain ⟨jobList, hjobList, hturn⟩ := except_bind_eq_ok.mp hturn
  obtain rfl := Except.ok.inj hturn
  have hx := hnumber.symm.trans (eq_some_of_valueOf hx)
  obtain rfl : id = job := Int.ofNat_inj.mp (hid.symm.trans (eq_natCast_of_indexOf hjob))
  obtain rfl := eq_natCast_of_indexOf hrank
  rw [htable] at hwrite
  obtain ⟨hlt, table', rfl, hsize'⟩ := exists_of_writeRank2Job hwrite
  obtain rfl := Option.some_inj.mp (hget.symm.trans (getElem?_of_readAt hentry))
  obtain ⟨hm', rfl⟩ := eq_set_of_writeAt hlist
  obtain ⟨hid', rfl⟩ := eq_set_of_writeAt hjobList
  refine ⟨?_, ?_, ⟨table', rfl, hsize'.trans hsize⟩, ranks.set m rank,
    List.getElem?_set_self hid', List.length_set.trans hlength, fun j hj ↦ ?_⟩
  · change s.fields.drop 1 = _
    rw [h.fields, List.drop_drop]
  · rw [if_neg (Nat.succ_ne_zero m), Nat.add_sub_cancel]
    exact hnumber
  · rcases Nat.lt_succ_iff_lt_or_eq.mp hj with hj | rfl
    · obtain ⟨r, hr, hvalue, hentry⟩ := hread j hj
      exact ⟨r, hr, hvalue, (List.getElem?_set_ne hj.ne').trans hentry⟩
    · exact ⟨rank, hsize ▸ hlt, hx, List.getElem?_set_self hm'⟩

/-- **What a row that returns has read**: a row that keeps to the tables, or too few numbers. -/
theorem RowState.reads_of_loop {jobList : List Job} {node : Node} {table : Table}
    (hid : id < jobList.length) {s : RowState (List ℤ)}
    (hloop : loop (RowState.turn scanNumbers jobs updateBit id wC) w
      ⟨⟨g, node, jobList.set id ⟨id, w, List.replicate w 0⟩, some table⟩, none⟩ = .ok s) :
    s.Reads g table.size id w w := by
  refine loop_rule_of_ok (RowState.Reads g table.size id w)
    (fun m hm s s' hs hturn ↦ hs.turn rfl hm hturn) ?_ hloop
  refine ⟨rfl, rfl, ⟨table, rfl, rfl⟩, List.replicate w 0, List.getElem?_set_self hid,
    List.length_replicate, fun j hj ↦ absurd hj (Nat.not_lt_zero j)⟩

theorem bind_ne_error {α β : Type} {x : Except Fault α} {f : α → Except Fault β} {e : Fault}
    (hx : x ≠ .error e) (hf : ∀ a, f a ≠ .error e) : (x >>= f) ≠ .error e := by
  cases x with
  | ok a => exact hf a
  | error e' => exact fun h ↦ hx (congrArg Except.error (Except.error.inj h))

theorem valueOf_ne_assertFailed (x : Option ℤ) : valueOf x ≠ .error .assertFailed := by
  cases x <;> simp [valueOf]

theorem indexOf_ne_assertFailed (x : ℤ) : indexOf x ≠ .error .assertFailed := by
  rw [indexOf]
  split <;> simp

theorem readAt_ne_assertFailed {α : Type*} (l : List α) (i : ℕ) :
    readAt l i ≠ .error .assertFailed := by
  rw [readAt]
  split <;> simp

theorem writeAt_ne_assertFailed {α : Type*} (l : List α) (i : ℕ) (a : α) :
    writeAt l i a ≠ .error .assertFailed := by
  rw [writeAt]
  split <;> simp

theorem writeRank2Job_ne_assertFailed (rank2Job : Option Table) (rank job : ℕ) :
    writeRank2Job rank2Job rank job ≠ .error .assertFailed := by
  cases rank2Job with
  | none => simp [writeRank2Job]
  | some table =>
    by_cases hrank : rank < table.size <;> simp [writeRank2Job, Table.write, hrank, Except.map]

theorem RowState.turn_ne_assertFailed (s : RowState (List ℤ)) (j : ℕ) :
    s.turn scanNumbers jobs updateBit jId wC j ≠ .error .assertFailed := by
  refine bind_ne_error (valueOf_ne_assertFailed _) fun w ↦ ?_
  refine bind_ne_error (indexOf_ne_assertFailed _) fun job ↦ ?_
  refine bind_ne_error (indexOf_ne_assertFailed _) fun rank ↦ ?_
  refine bind_ne_error (writeRank2Job_ne_assertFailed _ _ _) fun rank2Job ↦ ?_
  refine bind_ne_error (readAt_ne_assertFailed _ _) fun entry ↦ ?_
  refine bind_ne_error (writeAt_ne_assertFailed _ _ _) fun rankList ↦ ?_
  exact bind_ne_error (writeAt_ne_assertFailed _ _ _) fun jobList ↦ by simp

theorem RowState.Reads.exists_ranks {s : RowState (List ℤ)} (h : s.Reads g size id w w)
    (hw : w ≤ g.length) : ∃ ranks : List ℕ, ranks.length = w ∧ (∀ r ∈ ranks, r < size) ∧
      g = ranks.map Nat.cast ++ g.drop w := by
  obtain ⟨ranks, -, hlength, hread⟩ := h.entry
  refine ⟨ranks, hlength, fun r hr ↦ ?_, ?_⟩
  · obtain ⟨j, hj, rfl⟩ := List.mem_iff_getElem.mp hr
    obtain ⟨r, hr, -, hget⟩ := hread j (hlength ▸ hj)
    rw [List.getElem?_eq_getElem hj] at hget
    rwa [Option.some_inj.mp hget]
  · have htake : g.take w = ranks.map Nat.cast := by
      refine List.ext_getElem ?_ fun j hj hj' ↦ ?_
      · rw [List.length_take, List.length_map, hlength, min_eq_left hw]
      · rw [List.length_map] at hj'
        obtain ⟨r, -, hvalue, hget⟩ := hread j (hlength ▸ hj')
        have hmin : min j (g.length - 1) = j := by omega
        rw [hmin] at hvalue
        rw [List.getElem?_eq_getElem hj'] at hget
        rw [List.getElem_take, List.getElem_map, Option.some_inj.mp hget]
        exact Option.some_inj.mp ((List.getElem?_eq_getElem _).symm.trans hvalue)
    rw [← htake, List.take_append_drop]

/-- With too few the last of them is listed twice. -/
theorem RowState.Reads.exists_repeated {s : RowState (List ℤ)} (h : s.Reads g size id w w)
    (hpos : 0 < w) (hw : g.length < w) :
    s.fields = [] ∧ ∃ job ∈ s.jobList, ¬job.workers.Nodup := by
  obtain ⟨ranks, hentry, hlength, hread⟩ := h.entry
  refine ⟨by rw [h.fields, List.drop_eq_nil_of_le hw.le], _, List.mem_of_getElem? hentry, ?_⟩
  have hg : 0 < g.length := by
    obtain ⟨r, -, hvalue, -⟩ := hread 0 hpos
    exact (Nat.zero_le _).trans_lt (List.getElem?_eq_some_iff.mp hvalue).1
  obtain ⟨r, -, hvalue, hget⟩ := hread (g.length - 1) (by omega)
  obtain ⟨r', -, hvalue', hget'⟩ := hread g.length hw
  rw [min_self] at hvalue
  rw [min_eq_right (by omega)] at hvalue'
  obtain rfl : r = r' := Int.ofNat_inj.mp (Option.some_inj.mp (hvalue.symm.trans hvalue'))
  rw [Job.workers, List.take_of_length_le hlength.le]
  intro hnodup
  have hlt : g.length - 1 < ranks.length := by omega
  have heq := (List.getElem?_inj hlt hnodup).mp (hget.trans hget'.symm)
  omega

/-- What a turn of the loop over the rows can do. -/
inductive ParseState.Outcome (jobs : ℤ) (size : ℕ) (t : ParseState (List ℤ)) (k : ℕ) : Prop
  | row (e : ℕ × MapLine) (rest : List ℤ) (hfields : t.fields = e.2.fields e.1 ++ rest)
      (hkeeps : KeepsTo jobs size e)
  | stops (hfires : AssertFires jobs t.fields)
  | fails (e : Fault) (hne : e ≠ .assertFailed) (hturn : t.turn scanNumbers jobs k = .error e)
  | short (t' : ParseState (List ℤ)) (hturn : t.turn scanNumbers jobs k = .ok t')
      (hfields : t'.fields = [])
      (hrepeated : ∃ job ∈ t'.jobList, ¬job.workers.Nodup)

theorem AssertFires.turn {t : ParseState (List ℤ)} (h : AssertFires jobs t.fields) (k : ℕ) :
    t.turn scanNumbers jobs k = .error .assertFailed := by
  obtain ⟨updateBit, jId, rest, hfields, hcause⟩ := h
  rw [ParseState.turn, hfields]
  rcases hcause with hjobs | ⟨wC, g, rfl, hwC⟩
  · simp [scanNumbers, scanInt, valueOf, hjobs]
  · simp [scanNumbers, scanInt, valueOf, hwC]

theorem ParseState.outcome_row {t : ParseState (List ℤ)} {table : Table}
    (htable : t.rank2Job = some table) (hlength : t.jobList.length = jobs.toNat) (k : ℕ)
    {updateBit : ℤ} {id w : ℕ} {g : List ℤ}
    (hfields : t.fields = updateBit :: (id : ℤ) :: (w : ℤ) :: g) (hjobs : (id : ℤ) < jobs)
    (hwC : 0 < (w : ℤ)) : t.Outcome jobs table.size k := by
  have hid : id < t.jobList.length := by omega
  have hturn : t.turn scanNumbers jobs k = (loop (RowState.turn scanNumbers jobs updateBit id w) w
      ⟨⟨g, t.node, t.jobList.set id ⟨id, w, List.replicate w 0⟩, some table⟩, none⟩).map
        RowState.toParseState := by
    rw [ParseState.turn, hfields, scanNumbers_row]
    simp only [scanInt, valueOf, except_ok_bind, hjobs, hwC, not_true_eq_false, if_false,
      indexOf_natCast, writeAt_of_lt hid, Int.toNat_natCast, htable]
    rfl
  cases hloop : loop (RowState.turn scanNumbers jobs updateBit id w) w
      ⟨⟨g, t.node, t.jobList.set id ⟨id, w, List.replicate w 0⟩, some table⟩, none⟩ with
  | error e =>
    refine .fails e ?_ (by rw [hturn, hloop]; rfl)
    rintro rfl
    exact loop_ne_error (fun j _ s ↦ s.turn_ne_assertFailed j) _ hloop
  | ok s =>
    have hreads := RowState.reads_of_loop hid hloop
    by_cases hw : w ≤ g.length
    · obtain ⟨ranks, hranks, hlt, hg⟩ := hreads.exists_ranks hw
      refine .row (id, ⟨updateBit, ranks⟩) (g.drop w) ?_ ⟨hjobs, ?_, hlt⟩
      · rw [hfields, MapLine.fields, hranks]
        exact congrArg (fun l ↦ updateBit :: (id : ℤ) :: (w : ℤ) :: l) hg
      · rintro rfl
        simp at hranks
        omega
    · obtain ⟨hnil, hrepeated⟩ := hreads.exists_repeated (by omega) (not_le.mp hw)
      exact .short s.toParseState (by rw [hturn, hloop]; rfl) hnil hrepeated

theorem ParseState.outcome {t : ParseState (List ℤ)} {table : Table}
    (htable : t.rank2Job = some table) (hlength : t.jobList.length = jobs.toNat) (k : ℕ) :
    t.Outcome jobs table.size k := by
  rcases hfields : t.fields with _ | ⟨updateBit, _ | ⟨jId, rest⟩⟩
  · exact .fails .indeterminate (by simp) (by rw [ParseState.turn, hfields]; rfl)
  · exact .fails .indeterminate (by simp) (by rw [ParseState.turn, hfields]; rfl)
  by_cases hjobs : jId < jobs
  · rcases rest with _ | ⟨wC, g⟩
    · refine .fails .indeterminate (by simp) ?_
      rw [ParseState.turn, hfields]
      simp [scanNumbers, scanInt, valueOf, hjobs]
    by_cases hwC : 0 < wC
    · by_cases hneg : jId < 0
      · refine .fails .outOfBounds (by simp) ?_
        rw [ParseState.turn, hfields, scanNumbers_row]
        simp only [scanInt, valueOf, except_ok_bind, hjobs, hwC, not_true_eq_false, if_false]
        rw [indexOf, if_pos hneg]
        rfl
      · obtain ⟨id, rfl⟩ := Int.eq_ofNat_of_zero_le (not_lt.mp hneg)
        obtain ⟨w, rfl⟩ := Int.eq_ofNat_of_zero_le hwC.le
        exact outcome_row htable hlength k hfields hjobs hwC
    · exact .stops ⟨updateBit, jId, _, hfields, Or.inr ⟨wC, g, rfl, not_lt.mp hwC⟩⟩
  · exact .stops ⟨updateBit, jId, rest, hfields, Or.inl (not_lt.mp hjobs)⟩

end Row

/-! ## All rows -/

section Rows

variable {jobs : ℤ} {size : ℕ} {numbers rest : List ℤ} {entries : List (ℕ × MapLine)}
  {e : ℕ × MapLine} {node : Node} {table : Table}

theorem beginsWith_concat : BeginsWith jobs size numbers (entries ++ [e]) rest ↔
    BeginsWith jobs size numbers entries (e.2.fields e.1 ++ rest) ∧ KeepsTo jobs size e := by
  constructor
  · rintro ⟨hnumbers, hkeeps⟩
    refine ⟨⟨?_, fun e' he' ↦ hkeeps e' (List.mem_append_left _ he')⟩,
      hkeeps e (List.mem_append_right _ (List.mem_singleton_self e))⟩
    rw [hnumbers, List.flatMap_append, List.flatMap_singleton, List.append_assoc]
  · rintro ⟨⟨hnumbers, hkeeps⟩, he⟩
    refine ⟨?_, fun e' he' ↦ ?_⟩
    · rw [hnumbers, List.flatMap_append, List.flatMap_singleton, List.append_assoc]
    · rcases List.mem_append.mp he' with hold | hnew
      · exact hkeeps e' hold
      · rwa [List.mem_singleton.mp hnew]

/-- The tables behind the rows `entries`. -/
structure ParseState.Behind (jobs : ℤ) (table : Table) (entries : List (ℕ × MapLine))
    (rest : List ℤ) (t : ParseState (List ℤ)) : Prop where
  fields : t.fields = rest
  jobList : t.jobList = entries.foldl (fun l e ↦ l.set e.1 (e.2.job e.1))
    (List.replicate jobs.toNat Job.unset)
  rank2Job : t.rank2Job = some (entries.foldl (fun table e ↦ table.fill e.2.workers e.1) table)

theorem length_foldl_set (l : List Job) (entries : List (ℕ × MapLine)) :
    (entries.foldl (fun l e ↦ l.set e.1 (e.2.job e.1)) l).length = l.length := by
  induction entries generalizing l with
  | nil => rfl
  | cons e entries ih => rw [List.foldl_cons, ih, List.length_set]

theorem size_foldl_fill (table : Table) (entries : List (ℕ × MapLine)) :
    (entries.foldl (fun table e ↦ table.fill e.2.workers e.1) table).size = table.size := by
  induction entries generalizing table with
  | nil => rfl
  | cons e entries ih => rw [List.foldl_cons, ih, Table.size_fill]

/-- **Rows that keep to the tables** are read one after the other. -/
theorem BeginsWith.loop (h : BeginsWith jobs table.size numbers entries rest) (node : Node) : ∃ t,
    loop (ParseState.turn scanNumbers jobs) entries.length
        ⟨numbers, node, List.replicate jobs.toNat Job.unset, some table⟩ = .ok t ∧
      t.Behind jobs table entries rest := by
  induction entries using List.reverseRecOn generalizing rest with
  | nil => exact ⟨_, rfl, h.numbers, rfl, rfl⟩
  | append_singleton entries e ih =>
    obtain ⟨h, hid, hne, hranks⟩ := beginsWith_concat.mp h
    obtain ⟨t, ht, hfields, hjobList, hrank2Job⟩ := ih h
    have hlength : t.jobList.length = jobs.toNat := by
      rw [hjobList, length_foldl_set, List.length_replicate]
    have hid' : e.1 < t.jobList.length := by omega
    obtain ⟨t', hturn, hfields', hjobList', hrank2Job'⟩ : ∃ t',
        t.turn scanNumbers jobs entries.length = .ok t' ∧ t'.fields = rest ∧
          t'.jobList = t.jobList.set e.1 (e.2.job e.1) ∧
          t'.rank2Job = some ((entries.foldl (fun table e ↦ table.fill e.2.workers e.1)
            table).fill e.2.workers e.1) :=
      ⟨_, t.turn_entry hfields hid hne hid' hrank2Job
        (fun r hr ↦ (size_foldl_fill table entries).symm ▸ hranks r hr) _, rfl, rfl, rfl⟩
    refine ⟨t', ?_, hfields', ?_, ?_⟩
    · rw [List.length_append, List.length_singleton, loop_succ, ht]
      exact hturn
    · rw [hjobList', hjobList, List.foldl_append]
      rfl
    · rw [hrank2Job', List.foldl_append]
      rfl

/-- What the loop can have done after `n` turns. -/
inductive RowsOutcome (jobs : ℤ) (numbers : List ℤ) (node : Node) (table : Table) (n : ℕ) : Prop
  | rows (entries : List (ℕ × MapLine)) (rest : List ℤ)
      (h : BeginsWith jobs table.size numbers entries rest) (hlength : entries.length = n)
  | stops (entries : List (ℕ × MapLine)) (rest : List ℤ)
      (h : BeginsWith jobs table.size numbers entries rest) (hlength : entries.length < n)
      (hfires : AssertFires jobs rest)
  | fails (e : Fault) (hne : e ≠ .assertFailed) (hloop : loop (ParseState.turn scanNumbers jobs) n
      ⟨numbers, node, List.replicate jobs.toNat Job.unset, some table⟩ = .error e)
  | short (t : ParseState (List ℤ)) (hloop : loop (ParseState.turn scanNumbers jobs) n
      ⟨numbers, node, List.replicate jobs.toNat Job.unset, some table⟩ = .ok t)
      (hfields : t.fields = []) (hrepeated : ∃ job ∈ t.jobList, ¬job.workers.Nodup)

theorem rowsOutcome (jobs : ℤ) (numbers : List ℤ) (node : Node) (table : Table) (n : ℕ) :
    RowsOutcome jobs numbers node table n := by
  induction n with
  | zero => exact .rows [] numbers ⟨rfl, fun e he ↦ absurd he (by simp)⟩ rfl
  | succ n ih =>
    rcases ih with ⟨entries, rest, h, rfl⟩ | ⟨entries, rest, h, hlength, hfires⟩ |
      ⟨e, hne, hloop⟩ | ⟨t, hloop, hfields, hrepeated⟩
    · obtain ⟨t, ht, hfields, hjobList, hrank2Job⟩ := h.loop node
      have hlength : t.jobList.length = jobs.toNat := by
        rw [hjobList, length_foldl_set, List.length_replicate]
      rcases ParseState.outcome hrank2Job hlength entries.length with ⟨e, rest', he, hkeeps⟩ |
        hfires | ⟨e, hne, hturn⟩ | ⟨t', hturn, hfields', hrepeated⟩
      · rw [size_foldl_fill] at hkeeps
        rw [hfields] at he
        exact .rows (entries ++ [e]) rest' (beginsWith_concat.mpr ⟨he ▸ h, hkeeps⟩)
          List.length_append
      · rw [hfields] at hfires
        exact .stops entries rest h (Nat.lt_succ_self _) hfires
      · exact .fails e hne (loop_eq_error (Nat.lt_succ_self _) ht hturn)
      · refine .short t' ?_ hfields' hrepeated
        rw [loop_succ, ht]
        exact hturn
    · exact .stops entries rest h (by omega) hfires
    · exact .fails e hne (by rw [loop_succ, hloop]; rfl)
    · -- the file has ended, and the ids of the next row are indeterminate
      refine .fails .indeterminate (by simp) (loop_eq_error (Nat.lt_succ_self n) hloop ?_)
      rw [ParseState.turn, hfields]
      rfl

theorem BeginsWith.take (h : BeginsWith jobs size numbers entries rest) (k : ℕ) :
    BeginsWith jobs size numbers (entries.take k)
      ((entries.drop k).flatMap (fun e ↦ e.2.fields e.1) ++ rest) := by
  refine ⟨?_, fun e he ↦ h.keeps e (List.mem_of_mem_take he)⟩
  rw [← List.append_assoc, ← List.flatMap_append, List.take_append_drop, h.numbers]

/-! ## The tables at the end -/

theorem MapLine.workers_job (line : MapLine) (i : ℕ) : (line.job i).workers = line.workers :=
  List.take_of_length_le le_rfl

theorem getElem?_foldl_set (hnodup : (entries.map Prod.fst).Nodup) {l : List Job}
    (hlt : ∀ e ∈ entries, e.1 < l.length) : ∀ e ∈ entries,
      (entries.foldl (fun l e ↦ l.set e.1 (e.2.job e.1)) l)[e.1]? = some (e.2.job e.1) := by
  induction entries using List.reverseRecOn with
  | nil => exact fun e he ↦ absurd he (by simp)
  | append_singleton entries e ih =>
    rw [List.map_append, List.nodup_append] at hnodup
    obtain ⟨hnodup, -, hother⟩ := hnodup
    intro e' he'
    rw [List.foldl_append, List.foldl_cons, List.foldl_nil]
    rcases List.mem_append.mp he' with hold | hnew
    · have hne : e.1 ≠ e'.1 := fun heq ↦
        hother e'.1 (List.mem_map_of_mem hold) e.1 (by simp) heq.symm
      rw [List.getElem?_set_ne hne]
      exact ih hnodup (fun e he ↦ hlt e (List.mem_append_left _ he)) e' hold
    · obtain rfl := List.mem_singleton.mp hnew
      exact List.getElem?_set_self ((length_foldl_set l entries).symm ▸ hlt e' he')

theorem entry_foldl_fill (hnodup : (entries.flatMap fun e ↦ e.2.workers).Nodup) (table : Table) :
    ∀ e ∈ entries, ∀ q ∈ e.2.workers,
      (entries.foldl (fun table e ↦ table.fill e.2.workers e.1) table).entry q = e.1 := by
  induction entries using List.reverseRecOn with
  | nil => exact fun e he ↦ absurd he (by simp)
  | append_singleton entries e ih =>
    rw [List.flatMap_append, List.flatMap_singleton, List.nodup_append] at hnodup
    obtain ⟨hnodup, -, hother⟩ := hnodup
    intro e' he' q hq
    rw [List.foldl_append, List.foldl_cons, List.foldl_nil]
    rcases List.mem_append.mp he' with hold | hnew
    · have hq' : q ∉ e.2.workers := fun hmem ↦
        hother q (List.mem_flatMap.mpr ⟨e', hold, hq⟩) q hmem rfl
      rw [Table.entry_fill_of_notMem _ hq']
      exact ih hnodup e' hold q hq
    · obtain rfl := List.mem_singleton.mp hnew
      exact Table.entry_fill_of_mem _ hq _

theorem perm_jobList {l : List Job} (hids : (entries.map Prod.fst).Perm (List.range l.length))
    (hget : ∀ e ∈ entries, l[e.1]? = some (e.2.job e.1)) :
    (l.flatMap Job.workers).Perm (entries.flatMap fun e ↦ e.2.workers) := by
  have hl : (List.range l.length).map (fun i ↦ l.getD i Job.unset) = l := by
    refine List.ext_getElem (by simp) fun i hi hi' ↦ ?_
    rw [List.getElem_map, List.getElem_range, List.getD_eq_getElem _ _ hi']
  have hentries : (entries.map Prod.fst).map (fun i ↦ l.getD i Job.unset)
      = entries.map fun e ↦ e.2.job e.1 := by
    rw [List.map_map]
    refine List.map_congr_left fun e he ↦ ?_
    rw [Function.comp_apply, List.getD_eq_getElem?_getD, hget e he]
    rfl
  have hperm := hids.map fun i ↦ l.getD i Job.unset
  rw [hl, hentries] at hperm
  have hflat := hperm.symm.flatMap_right Job.workers
  rw [List.flatMap_map] at hflat
  simpa only [MapLine.workers_job] using hflat

end Rows

/-! ## The whole call -/

namespace Process

variable {s : Process} {text : Text} {cores jobs : ℤ} {rows rest : List ℤ}
  {entries : List (ℕ × MapLine)}

theorem fills_iff_of_beginsWith (h : ScansAll text (cores :: jobs :: rows))
    (hrows : BeginsWith jobs (s.startTable cores).size rows entries rest) {k : ℕ}
    (hk : k < entries.length) (i : ℕ) : s.Fills text k i ↔ entries[k].1 = i := by
  obtain ⟨t, ht, hfields, -⟩ := (hrows.take k).loop s.node.reset
  rw [List.length_take, min_eq_left hk.le] at ht
  have hid : t.fields[1]? = some (entries[k].1 : ℤ) := by
    rw [hfields, List.drop_eq_getElem_cons hk]
    rfl
  rw [fills_iff h]
  constructor
  · rintro ⟨t', ht', hi⟩
    obtain rfl := Except.ok.inj (ht.symm.trans ht')
    exact Int.ofNat_inj.mp (Option.some_inj.mp (hid.symm.trans hi))
  · rintro rfl
    exact ⟨t, ht, hid⟩

theorem filled_iff (h : ScansAll text (cores :: jobs :: rows))
    (hrows : BeginsWith jobs (s.startTable cores).size rows entries rest) :
    (∀ i < entries.length, ∃! k, k < entries.length ∧ s.Fills text k i) ↔
      (entries.map Prod.fst).Perm (List.range entries.length) := by
  have hlength : (entries.map Prod.fst).length = entries.length := List.length_map _
  constructor
  · intro hfilled
    have hsub : List.range entries.length ⊆ entries.map Prod.fst := by
      intro i hi
      obtain ⟨k, ⟨hk, hfills⟩, -⟩ := hfilled i (List.mem_range.mp hi)
      rw [← (fills_iff_of_beginsWith h hrows hk i).mp hfills]
      exact List.mem_map_of_mem (List.getElem_mem hk)
    -- as many rows as jobs, so a job that has one has no second
    refine ((List.nodup_range.subperm hsub).perm_of_length_le ?_).symm
    rw [hlength, List.length_range]
  · intro hperm i hi
    have hnodup := hperm.nodup_iff.mpr List.nodup_range
    obtain ⟨k, hk, hget⟩ := List.mem_iff_getElem.mp (hperm.mem_iff.mpr (List.mem_range.mpr hi))
    rw [List.getElem_map] at hget
    rw [hlength] at hk
    refine ⟨k, ⟨hk, (fills_iff_of_beginsWith h hrows hk i).mpr hget⟩, ?_⟩
    rintro k' ⟨hk', hfills⟩
    have hget' := (fills_iff_of_beginsWith h hrows hk' i).mp hfills
    have hlt : k < (entries.map Prod.fst).length := hlength.symm ▸ hk
    have hlt' : k' < (entries.map Prod.fst).length := hlength.symm ▸ hk'
    have heq : (entries.map Prod.fst)[k'] = (entries.map Prod.fst)[k] := by
      rw [List.getElem_map, List.getElem_map, hget, hget']
    exact hnodup.getElem_inj_iff.mp heq

/-- Where the ranks of the rows are all different, `rank_2_job` and `job_list` agree. -/
theorem readRank2Job_iff {jobList : List Job} {table : Table}
    (hrows : BeginsWith jobs table.size rows entries rest)
    (hids : (entries.map Prod.fst).Perm (List.range jobList.length))
    (hget : ∀ e ∈ entries, jobList[e.1]? = some (e.2.job e.1))
    (hnodup : (entries.flatMap fun e ↦ e.2.workers).Nodup) {q : ℕ}
    (hq : q ∈ entries.flatMap fun e ↦ e.2.workers) (i : ℕ) :
    readRank2Job (some (entries.foldl (fun table e ↦ table.fill e.2.workers e.1) table)) q = .ok i ↔
      ∃ job, jobList[i]? = some job ∧ q ∈ job.workers := by
  obtain ⟨e, he, hq⟩ := List.mem_flatMap.mp hq
  have hentry := entry_foldl_fill hnodup table
  have hread : readRank2Job (some (entries.foldl (fun table e ↦ table.fill e.2.workers e.1) table))
      q = .ok e.1 := by
    rw [readRank2Job, Table.read_of_lt, hentry e he q hq]
    rw [size_foldl_fill]
    exact (hrows.keeps e he).ranks q hq
  rw [hread]
  constructor
  · intro h
    obtain rfl := Except.ok.inj h
    exact ⟨_, hget e he, (e.2.workers_job e.1).symm ▸ hq⟩
  · rintro ⟨job, hjob, hmem⟩
    obtain ⟨e', he', rfl⟩ := List.mem_map.mp (hids.mem_iff.mpr
      (List.mem_range.mpr (List.getElem?_eq_some_iff.mp hjob).1))
    obtain rfl := Option.some_inj.mp ((hget e' he').symm.trans hjob)
    rw [MapLine.workers_job] at hmem
    -- the table has one entry for a rank, so two jobs cannot both have it
    rw [← hentry e he q hq, ← hentry e' he' q hmem]

/-- Rows that keep to the tables are read to the end, and the tables are those of the map if they
list every job and no rank twice. -/
theorem exists_parseMapText (h : ScansAll text (cores :: jobs :: rows))
    (hckpt : s.ckptRestore = .no) (hcount : s.node.jobsCount ≤ s.jobList.length)
    (hrows : BeginsWith jobs (s.startTable cores).size rows entries rest)
    (hlength : entries.length = jobs.toNat) :
    ∃ s', s.parseMapText text = .ok s' ∧ (s'.MapRead s text ↔
      (entries.map Prod.fst).Perm (List.range jobs.toNat) ∧
        (entries.flatMap fun e ↦ e.2.workers).Nodup) := by
  obtain ⟨t, ht, -, hjobList, hrank2Job⟩ := hrows.loop s.node.reset
  have hparse := parseMapText_eq_loop h hckpt hcount
  rw [hlength] at ht
  rw [parseStart, ht] at hparse
  refine ⟨_, hparse, ?_⟩
  have hlength' : t.jobList.length = entries.length := by
    rw [hjobList, length_foldl_set, List.length_replicate, hlength]
  have hget : (entries.map Prod.fst).Perm (List.range entries.length) → ∀ e ∈ entries,
      t.jobList[e.1]? = some (e.2.job e.1) := by
    intro hperm
    rw [hjobList]
    refine getElem?_foldl_set (hperm.nodup_iff.mpr List.nodup_range) fun e he ↦ ?_
    rw [List.length_replicate, ← hlength]
    exact List.mem_range.mp (hperm.mem_iff.mp (List.mem_map_of_mem he))
  -- each job has one row, so the lists of the jobs are those of the rows in another order
  have hperm : (entries.map Prod.fst).Perm (List.range entries.length) →
      (t.jobList.flatMap Job.workers).Perm (entries.flatMap fun e ↦ e.2.workers) :=
    fun hids ↦ perm_jobList (hlength'.symm ▸ hids) (hget hids)
  rw [← hlength]
  constructor
  · rintro ⟨-, hfilled, hnodup, -⟩
    change ∀ i < t.jobList.length, ∃! k, k < t.jobList.length ∧ _ at hfilled
    rw [hlength'] at hfilled
    have hids := (filled_iff h hrows).mp hfilled
    exact ⟨hids, (hperm hids).nodup_iff.mp hnodup⟩
  · rintro ⟨hids, hnodup⟩
    refine ⟨fun jobs' hjobs ↦ ?_, ?_, (hperm hids).nodup_iff.mpr hnodup, fun q hq i ↦ ?_⟩
    · obtain ⟨text', htext, -⟩ := fscanf_header h
      rw [htext] at hjobs
      obtain rfl := Option.some_inj.mp hjobs
      exact hlength'.trans hlength
    · change ∀ i < t.jobList.length, ∃! k, k < t.jobList.length ∧ _
      rw [hlength']
      exact (filled_iff h hrows).mpr hids
    · change readRank2Job t.rank2Job q = _ ↔ _
      rw [hrank2Job]
      exact readRank2Job_iff hrows (hlength'.symm ▸ hids) (hget hids) hnodup
        ((hperm hids).mem_iff.mp hq) i

/-- The only way a sound call fails is a failed assert. -/
theorem ParseSound.eq_assertFailed (h : s.ParseSound text) {e : Fault}
    (he : s.parseMapText text = .error e) : e = .assertFailed := by
  rcases h with hassert | ⟨s', hs', -⟩
  · exact Except.error.inj (he.symm.trans hassert)
  · exact absurd (he.symm.trans hs') (by simp)

theorem ParseSound.mapRead (h : s.ParseSound text) {s' : Process}
    (hs' : s.parseMapText text = .ok s') : s'.MapRead s text := by
  rcases h with hassert | ⟨s'', hs'', hread⟩
  · exact absurd (hs'.symm.trans hassert) (by simp)
  · rwa [Except.ok.inj (hs'.symm.trans hs'')]

theorem ParseSound.jobsCount_le {numbers : List ℤ} (hckpt : s.ckptRestore = .no)
    (hscan : ScansAll text numbers) (h : s.ParseSound text) :
    s.node.jobsCount ≤ s.jobList.length := by
  by_contra hlt
  refine absurd (h.eq_assertFailed (e := .outOfBounds) ?_) (by simp)
  obtain ⟨text', htext, -⟩ := fscanf_header hscan
  rw [parseMapText, parseMap, if_neg (by simp [hckpt]), htext]
  exact if_pos (not_le.mp hlt)

/-- The rows of a sound call keep to the tables, up to one that an assert stops. -/
theorem ParseSound.guarded (hckpt : s.ckptRestore = .no)
    (hscan : ScansAll text (cores :: jobs :: rows)) (h : s.ParseSound text) :
    Guarded jobs (s.startTable cores).size rows := by
  have hcount := h.jobsCount_le hckpt hscan
  have hparse := parseMapText_eq_loop hscan hckpt hcount
  rcases rowsOutcome jobs rows s.node.reset (s.startTable cores) jobs.toNat with
    ⟨entries, rest, hrows, hlength⟩ | ⟨entries, rest, hrows, hlength, hfires⟩ |
    ⟨e, hne, hloop⟩ | ⟨t, hloop, -, job, hjob, hrepeated⟩
  · obtain ⟨s', hs', hread⟩ := exists_parseMapText hscan hckpt hcount hrows hlength
    obtain ⟨hids, hnodup⟩ := hread.mp (h.mapRead hs')
    exact .lists entries rest hrows hids hnodup
  · exact .stops entries rest hrows hlength hfires
  · rw [parseStart, hloop] at hparse
    exact absurd (h.eq_assertFailed hparse) hne
  · -- the file ended in the last row
    rw [parseStart, hloop] at hparse
    exact absurd ((List.nodup_flatMap.mp (h.mapRead hparse).nodup).1 job hjob) hrepeated

theorem parseSound_of_guarded (hckpt : s.ckptRestore = .no)
    (hscan : ScansAll text (cores :: jobs :: rows)) (hcount : s.node.jobsCount ≤ s.jobList.length)
    (h : Guarded jobs (s.startTable cores).size rows) : s.ParseSound text := by
  rcases h with ⟨entries, rest, hrows, hids, hnodup⟩ | ⟨entries, rest, hrows, hlength, hfires⟩
  · have hlength : entries.length = jobs.toNat := by
      simpa using hids.length_eq
    obtain ⟨s', hs', hread⟩ := exists_parseMapText hscan hckpt hcount hrows hlength
    exact Or.inr ⟨s', hs', hread.mpr ⟨hids, hnodup⟩⟩
  · obtain ⟨t, ht, hfields, -⟩ := hrows.loop s.node.reset
    left
    rw [parseMapText_eq_loop hscan hckpt hcount, parseStart,
      loop_eq_error hlength ht ((hfields.symm ▸ hfires : AssertFires jobs t.fields).turn _)]
    rfl

end Process

end EntangledMPI
