import EntangledMPI.Mpi.PointToPoint

/-!
# Receives from any source

`SET_TAG` packs the rank of the sender into the tag, on both sides. A receive from `MPI_ANY_SOURCE`
knows no rank and packs the wildcard itself, `-1`, which leaves the plain user tag; no message of a
worker carries that. Behind such a receive, `MPI_Wait` posts one receive more for every other worker
of the sender's job, from any source again.

## Main result

`Process.Shares.anySourceSound_iff`: the two kinds of receives match what they are meant for only
for senders whose rank makes `100 * (rank + 1)` overflow to zero, so never in a world of fewer than
`2 ^ 30` processes that has a sender at all.
-/

namespace EntangledMPI

open CountingLoop

/-- `MPI_ANY_SOURCE`. -/
def mpiAnySource : ℤ := -1

/-- A receive that has been posted to PMPI. -/
structure PostedRecv where
  source : ℤ
  tag : ℤ
  deriving DecidableEq

/-- A message of a rank, with the tag it was given to PMPI with. -/
structure Envelope where
  source : ℕ
  tag : ℤ

/-- PMPI may match the message to the receive. -/
def PostedRecv.Matches (recv : PostedRecv) (message : Envelope) : Prop :=
  (recv.source = mpiAnySource ∨ recv.source = message.source) ∧ recv.tag = message.tag

/-- What `MPI_Send` sends from a rank under a user tag. -/
def Envelope.ofSend (rank : ℕ) (tag : UserTag) : Envelope := ⟨rank, setTag rank tag⟩

namespace Process

/-- The receives that `MPI_Irecv` posts. -/
def mpiIrecv (s : Process) (source tag : ℤ) : Except Fault (List PostedRecv) :=
  if source = mpiAnySource then
    return [⟨mpiAnySource, setTag mpiAnySource tag⟩]
  else do
    let calls ← s.workerCalls source.toNat fun recvSource ↦ setTag recvSource tag
    return calls.map fun call ↦ ⟨call.1, call.2⟩

/-- One turn of the loop of `wait_for_agg_request` over the workers of the sender's job. -/
def blackholeTurn (source : ℕ) (tag : ℤ) (job : Job) (posted : List PostedRecv) (i : ℕ) :
    Except Fault (List PostedRecv) := do
  let receiverForRank ← readAt job.rankList i
  return if source = receiverForRank then posted
    else posted ++ [⟨mpiAnySource, setTag receiverForRank tag⟩]

/-- The receives `wait_for_agg_request` posts into the blackhole buffer when a receive from any
source with the user tag `tag` has got a message of the rank `source`. -/
def waitForAggRequest (s : Process) (source : ℕ) (tag : ℤ) : Except Fault (List PostedRecv) := do
  match s.rank2Job with
  | none => throw .outOfBounds
  | some table =>
    let job ← readAt s.jobList (← table.read source)
    loop (blackholeTurn source tag job) job.workerCount []

/-- What a receive from any source under the tag `tag` is meant to do, with messages of the ranks
`senders` under way. -/
structure AnySourceSound (s : Process) (senders : Set ℕ) (tag : UserTag) : Prop where
  /-- It matches exactly the messages of its user tag. -/
  first : ∀ posted, s.mpiIrecv mpiAnySource tag = .ok posted → ∀ recv ∈ posted,
    ∀ rank ∈ senders, ∀ tag' : UserTag, recv.Matches (.ofSend rank tag') ↔ tag' = tag
  /-- A receive posted behind it matches only what another worker of the sender's job sends under
  the tag of the message just received. -/
  rest : ∀ posted, s.mpiIrecv mpiAnySource tag = .ok posted → ∀ recv ∈ posted,
    ∀ rank ∈ senders, ∀ tag' : UserTag, recv.Matches (.ofSend rank tag') →
      ∀ posted', s.waitForAggRequest rank tag = .ok posted' → ∀ recv' ∈ posted',
        ∀ rank' ∈ senders, ∀ tag'' : UserTag, recv'.Matches (.ofSend rank' tag'') →
          rank' ≠ rank ∧ (∃ job ∈ s.jobList, rank ∈ job.workers ∧ rank' ∈ job.workers) ∧
            tag'' = tag'

end Process

/-! ## The arithmetic of the tags -/

/-- The rank vanishes from the tag only by overflow. -/
theorem setTag_eq_tag_iff {rank : ℕ} {tag : UserTag} :
    setTag rank tag = tag ↔ 2 ^ 30 ∣ rank + 1 := by
  have htag := tag.isLt
  simp only [setTag, Int.bmod_def]
  constructor
  · intro h
    split at h <;> omega
  · intro h
    split <;> omega

theorem setTag_mpiAnySource (tag : UserTag) : setTag mpiAnySource tag = tag := by
  have htag := tag.isLt
  simp only [setTag, mpiAnySource, Int.bmod_def]
  split <;> omega

theorem setTag_lt (rank : ℤ) (tag : ℤ) : setTag rank tag < 2 ^ 31 := by
  simp only [setTag, Int.bmod_def]
  split <;> omega

/-! ## The receives behind it -/

/-- One receive for every worker but the sender. -/
def blackholeRecvs (source : ℕ) (tag : ℤ) (workers : List ℕ) : List PostedRecv :=
  (workers.filter fun r ↦ source ≠ r).map fun r : ℕ ↦ ⟨mpiAnySource, setTag r tag⟩

theorem Process.Shares.waitForAggRequest_eq {n : ℕ} {L : Layout n} {s : Process} {comm : Group}
    {p i source : ℕ} (h : s.Shares L comm p) (hsource : source ∈ L.workers i) (tag : ℤ) :
    s.waitForAggRequest source tag = .ok (blackholeRecvs source tag (L.workers i)) := by
  obtain ⟨table, htable, hsize, hentry⟩ := h.rank2Job
  obtain ⟨job, hjob, hcount, hranks⟩ := h.exists_job (Layout.lt_length_of_mem_workers hsource)
  have hread : table.read source = .ok i := by
    rw [Table.read_of_lt ((Layout.lt_of_mem_workers hsource).trans_le hsize), hentry i _ hsource]
  have hturn : ∀ k < job.workerCount, ∀ posted,
      posted = blackholeRecvs source tag ((L.workers i).take k) →
        ∃ posted', blackholeTurn source tag job posted k = .ok posted' ∧
          posted' = blackholeRecvs source tag ((L.workers i).take (k + 1)) := by
    rintro k hk posted rfl
    obtain ⟨rank, -, hget, hrank⟩ := hranks k hk
    refine ⟨_, ?_, rfl⟩
    rw [blackholeTurn, hrank, except_ok_bind, List.take_add_one, hget, blackholeRecvs,
      blackholeRecvs, Option.toList_some, List.filter_append, List.map_append]
    by_cases hself : source = rank
    · simp [hself]
    · simp [hself]
  obtain ⟨posted, hposted, rfl⟩ := loop_rule_ok _ hturn (s := []) rfl
  rw [waitForAggRequest, htable]
  dsimp only
  rw [hread, except_ok_bind, hjob, except_ok_bind, hposted, hcount, List.take_length]

/-! ## The two kinds of receives -/

section

variable {n : ℕ} {L : Layout n} {s : Process} {comm : Group} {p : ℕ} {senders : Set ℕ}

theorem matches_anySource_iff {rank : ℕ} {tag tag' : UserTag} {posted : List PostedRecv}
    (hposted : s.mpiIrecv mpiAnySource tag = .ok posted) {recv : PostedRecv}
    (hrecv : recv ∈ posted) :
    recv.Matches (.ofSend rank tag') ↔ setTag rank tag' = tag := by
  rw [Process.mpiIrecv, if_pos rfl] at hposted
  obtain rfl := Except.ok.inj hposted
  obtain rfl := List.mem_singleton.mp hrecv
  rw [PostedRecv.Matches, setTag_mpiAnySource]
  dsimp only [Envelope.ofSend]
  constructor
  · rintro ⟨-, h⟩
    exact h.symm
  · intro h
    exact ⟨Or.inl rfl, h.symm⟩

namespace Process

theorem mpiIrecv_mpiAnySource (s : Process) (tag : ℤ) :
    s.mpiIrecv mpiAnySource tag = .ok [⟨mpiAnySource, setTag mpiAnySource tag⟩] := rfl

/-- Every sender's own messages match only if its rank vanishes from the tag. -/
theorem AnySourceSound.dvd {tag : UserTag} (hsound : s.AnySourceSound senders tag) {rank : ℕ}
    (hrank : rank ∈ senders) : 2 ^ 30 ∣ rank + 1 := by
  have hirecv := s.mpiIrecv_mpiAnySource tag
  have hfirst := hsound.first _ hirecv _ List.mem_cons_self rank hrank tag
  rw [matches_anySource_iff hirecv List.mem_cons_self] at hfirst
  exact setTag_eq_tag_iff.mp (hfirst.mpr rfl)

theorem AnySourceSound.setTag_lt_zero {tag : UserTag} (hsound : s.AnySourceSound senders tag)
    (h : s.Shares L comm p) {rank : ℕ} (hrank : rank ∈ senders) {i : ℕ} (hi : rank ∈ L.workers i)
    {w : ℕ} (hw : w ∈ L.workers i) (hne : w ≠ rank) : setTag w tag < 0 := by
  have hirecv := s.mpiIrecv_mpiAnySource tag
  have hplain : ∀ tag' : UserTag, setTag rank tag' = tag' := fun tag' ↦
    setTag_eq_tag_iff.mpr (hsound.dvd hrank)
  by_contra hneg
  have hlt := setTag_lt w tag
  obtain ⟨k, hk⟩ := Int.eq_ofNat_of_zero_le (not_lt.mp hneg)
  have hklt : k < 2147483648 := by omega
  obtain ⟨tag', rfl⟩ : ∃ tag' : UserTag, (tag' : ℕ) = k := ⟨⟨k, hklt⟩, rfl⟩
  have hposted : (⟨mpiAnySource, setTag w tag⟩ : PostedRecv)
      ∈ blackholeRecvs rank tag (L.workers i) :=
    List.mem_map.mpr ⟨w, List.mem_filter.mpr ⟨hw, by simpa using hne.symm⟩, rfl⟩
  have hmatch : PostedRecv.Matches ⟨mpiAnySource, setTag w tag⟩ (.ofSend rank tag') := by
    refine ⟨Or.inl rfl, ?_⟩
    dsimp only [Envelope.ofSend]
    rw [hplain, hk]
  have hdelivered := (matches_anySource_iff hirecv List.mem_cons_self).mpr (hplain tag)
  exact (hsound.rest _ hirecv _ List.mem_cons_self rank hrank tag hdelivered _
    (h.waitForAggRequest_eq hi tag) _ hposted rank hrank tag' hmatch).1 rfl

/-- **When receives from any source match what they should**: if the ranks of all senders make
`SET_TAG` overflow to the plain tag, and to a negative one for the other workers of their jobs. -/
theorem Shares.anySourceSound_iff (h : s.Shares L comm p)
    (hsenders : ∀ rank ∈ senders, rank < n) (tag : UserTag) :
    s.AnySourceSound senders tag ↔ ∀ rank ∈ senders, 2 ^ 30 ∣ rank + 1 ∧
      ∀ i, rank ∈ L.workers i → ∀ w ∈ L.workers i, w ≠ rank → setTag w tag < 0 := by
  constructor
  · intro hsound rank hrank
    exact ⟨hsound.dvd hrank, fun i hi w hw hne ↦ hsound.setTag_lt_zero h hrank hi hw hne⟩
  · intro hall
    constructor
    · intro posted hposted recv hrecv rank hrank tag'
      rw [matches_anySource_iff hposted hrecv, setTag_eq_tag_iff.mpr (hall rank hrank).1]
      exact ⟨fun heq ↦ Fin.ext (Int.ofNat_inj.mp heq), fun heq ↦ by rw [heq]⟩
    · -- a receive behind it waits for a negative tag, which no message has
      intro posted hposted recv hrecv rank hrank tag' _ posted' hposted' recv' hrecv' rank' hrank'
        tag'' hmatch
      obtain ⟨i, hi⟩ := L.exists_mem_workers (hsenders rank hrank)
      rw [h.waitForAggRequest_eq hi, Except.ok.injEq] at hposted'
      subst hposted'
      obtain ⟨w, hw, rfl⟩ := List.mem_map.mp hrecv'
      obtain ⟨hwi, hne⟩ := List.mem_filter.mp hw
      have hneg := (hall rank hrank).2 i hi w hwi (Ne.symm (of_decide_eq_true hne))
      have htag := hmatch.2
      dsimp only [Envelope.ofSend] at htag
      rw [setTag_eq_tag_iff.mpr (hall rank' hrank').1] at htag
      rw [htag] at hneg
      exact absurd hneg (not_lt.mpr (Int.natCast_nonneg _))

end Process

end

/-- Rank `0` does not make `SET_TAG` overflow. -/
theorem anySourceSound_descending :
    ¬(Layout.descending.process [7, 8, 9] 7).AnySourceSound {0} 5 := by
  intro h
  have hall := ((Layout.process_shares Layout.descending rfl (by decide)).anySourceSound_iff
    (by simp) 5).mp h
  exact absurd (hall 0 rfl).1 (by decide)

/-- Rank `2` sends under the tag `5`, and PMPI is given the tag `305`. -/
theorem not_anySourceSound_descending :
    ¬(Layout.descending.process [7, 8, 9] 7).AnySourceSound {2} 5 := by
  intro h
  have hfirst := (h.first _ rfl ⟨mpiAnySource, setTag mpiAnySource (5 : UserTag)⟩
    List.mem_cons_self 2 rfl 5).mpr rfl
  exact absurd hfirst.2 (by decide)

end EntangledMPI
