import EntangledMPI.Checkpoint.RoundTrip

/-!
# A checkpoint that is cut short

`init_ckpt` opens the file of the job with `"wb"`, which empties it, and writes the new checkpoint
in place. If the process stops on the way, the file holds what had been written. A later start asks
`does_ckpt_file_exists` and no more: there is no mark of completeness in the file, and no copy of
the earlier one.

Every section of a restore leaves of a cut file what lies behind the section, so at the two flags
fewer than eight bytes are left, and the second flag keeps its last byte.

## Main result

`Writing.interrupted`: what a later start finds, and that a restore from it is one from the new
checkpoint exactly when that is complete.
-/

namespace EntangledMPI.Checkpoint

open ByteStream Replication

/-! ## The file while it is written -/

/-- The file of the job, and the bytes that have not reached it: `none` before `fopen`. -/
structure Writing where
  file : Option (List UInt8)
  pending : Option (List UInt8)

namespace Writing

/-- `fopen` empties the file, and the bytes of the `fwrite`s reach it in their order. -/
inductive Step (content : List UInt8) : Writing → Writing → Prop
  | fopen {file : Option (List UInt8)} : Step content ⟨file, none⟩ ⟨some [], some content⟩
  | fwrite {file rest : List UInt8} {b : UInt8} :
    Step content ⟨some file, some (b :: rest)⟩ ⟨some (file ++ [b]), some rest⟩

/-- The states in which `init_ckpt` can stop. -/
def Run (earlier : Option (List UInt8)) (content : List UInt8) : Writing → Prop :=
  Relation.ReflTransGen (Step content) ⟨earlier, none⟩

end Writing

/-- `does_ckpt_file_exists`. -/
def doesCkptFileExists (file : Option (List UInt8)) : Bool := file.isSome

/-- From the two files a restore makes the same of every fresh process. -/
def Image.SameRestore (p : Image) (entries : List Entry) (file file' : List UInt8) : Prop :=
  ∀ (u : Unspecified) (q : Image), q.Fresh p → u.Allocates entries.length →
    (Image.initCkptRestore u q file).map Prod.fst = (Image.initCkptRestore u q file').map Prod.fst

namespace Writing

/-- The file a start finds is absent, or restores like the earlier file or like the complete new
one. -/
def FindsComplete (p : Image) (entries : List Entry) (earlier : Option (List UInt8))
    (content : List UInt8) (s : Writing) : Prop :=
  s.file = none ∨ ∃ file, s.file = some file ∧ ∃ complete,
    (earlier = some complete ∨ complete = content) ∧ p.SameRestore entries file complete

/-- What a start finds: before `fopen` the file as it was, and from then on the bytes written so
far, which are accepted, and which restore the new state if and only if they are all. -/
def Interrupted (p : Image) (entries : List Entry) (earlier : Option (List UInt8))
    (content : List UInt8) (s : Writing) : Prop :=
  (s.pending = none ∧ s.file = earlier) ∨
    ∃ written rest, s.pending = some rest ∧ written ++ rest = content ∧ s.file = some written ∧
      doesCkptFileExists s.file = true ∧ (p.SameRestore entries written content ↔ rest = [])

end Writing

/-! ## What a section leaves of a cut file -/

theorem drop_drop_of_field {l : List UInt8} {m n k : ℕ} (hk : m ≤ l.length → k = n) :
    (l.drop m).drop k = l.drop (m + n) := by
  by_cases hm : m ≤ l.length
  · rw [hk hm, List.drop_drop]
  · have hnil : l.drop m = [] := List.drop_eq_nil_of_le (by omega)
    rw [hnil, List.drop_nil, List.drop_eq_nil_of_le (by omega)]

theorem exists_append_of_prefix {l field rest : List UInt8} (h : l <+: field ++ rest)
    (hlength : field.length ≤ l.length) : ∃ rest', l = field ++ rest' := by
  obtain ⟨rest', hrest'⟩ :=
    List.prefix_of_prefix_length_le (List.prefix_append field rest) h hlength
  exact ⟨rest', hrest'.symm⟩

theorem drop_prefix {l rest : List UInt8} (field : List UInt8) (h : l <+: field ++ rest) :
    l.drop field.length <+: rest := by
  have hdrop := h.drop field.length
  rwa [List.drop_left] at hdrop

namespace Image

variable {p q : Image} {u : Unspecified} {f : Stream} {rest : List UInt8}

theorem freadWord_cut {n : ℕ} (hn : n < 2 ^ 64) (old : UInt64)
    (h : f.rest <+: encode 8 n ++ rest) (hlength : 8 ≤ f.rest.length) :
    (freadWord old f).1.toNat = n := by
  obtain ⟨rest', hrest'⟩ := exists_append_of_prefix h (by rwa [length_encode])
  obtain ⟨frest, eof⟩ := f
  obtain rfl : frest = encode 8 n ++ rest' := hrest'
  rw [freadWord_length _ _ hn, UInt64.toNat_ofNat_of_lt' hn]

theorem container_cut {c : MallocContainer} (tempContainer : MallocContainer)
    (h : f.rest <+: encodeContainer c ++ rest) (hlength : 32 ≤ f.rest.length) :
    decodeContainer (fread 32 (encodeContainer tempContainer) f).1 = c := by
  obtain ⟨rest', hrest'⟩ := exists_append_of_prefix h (by rwa [length_encodeContainer])
  obtain ⟨frest, eof⟩ := f
  obtain rfl : frest = encodeContainer c ++ rest' := hrest'
  rw [fread_append_of_length (length_encodeContainer _) (length_encodeContainer _).le,
    decodeContainer_encodeContainer]

theorem rest_restoreDataSeg (hdataSize : p.data.length < 2 ^ 64) (hbssSize : p.bss.length < 2 ^ 64)
    (h : f.rest <+: p.saveDataSeg ++ rest) :
    (restoreDataSeg u q f).2.rest = f.rest.drop p.saveDataSeg.length := by
  let count := freadWord u.countBytesUninit f
  let behind := (fread count.1.toNat q.data count.2).2
  rw [saveDataSeg, List.append_assoc, List.append_assoc, List.append_assoc,
    ← List.append_assoc] at h
  have hfirst : behind.rest = f.rest.drop (8 + p.data.length) :=
    drop_drop_of_field fun hlength ↦ freadWord_cut hdataSize _ (List.append_assoc _ _ _ ▸ h) hlength
  have hbehind : behind.rest <+: encode 8 p.bss.length ++ (p.bss ++ rest) := by
    have hdrop := drop_prefix _ h
    rwa [List.length_append, length_encode, ← hfirst] at hdrop
  have hsecond : (restoreDataSeg u q f).2.rest = behind.rest.drop (8 + p.bss.length) :=
    drop_drop_of_field fun hlength ↦ freadWord_cut hbssSize _ hbehind hlength
  rw [hsecond, hfirst, List.drop_drop, saveDataSeg]
  simp only [List.length_append, length_encode]
  congr 1
  omega

theorem rest_restoreStackSeg (h : f.rest <+: p.saveStackSeg ++ rest) :
    (restoreStackSeg u q f).2.rest = f.rest.drop p.saveStackSeg.length := by
  let behind := (fread 24 (encodeContext u.processContext) f).2
  rw [saveStackSeg, List.append_assoc, List.append_assoc] at h
  have hbehind : behind.rest <+: encode 8 p.stackSize.toNat ++
      (readAt p.stack p.context.rsp p.stackSize.toNat ++ rest) := by
    have hdrop := drop_prefix _ h
    rwa [length_encodeContext] at hdrop
  have hrest : (restoreStackSeg u q f).2.rest = behind.rest.drop (8 + p.stackSize.toNat) :=
    drop_drop_of_field fun hlength ↦ freadWord_cut p.stackSize.toNat_lt _ hbehind hlength
  rw [hrest, saveStackSeg, List.length_append, List.length_append, length_encodeContext,
    length_encode, length_readAt, Nat.add_assoc]
  exact List.drop_drop

theorem rest_restoreFrom_nil (n : ℕ) {i : ℕ} {tempContainer : MallocContainer} {h h' : Heap}
    {f' : Stream} (hf : f.rest = []) (hrun : restoreFrom u n i tempContainer h f = some (h', f')) :
    f'.rest = [] := by
  induction n generalizing i tempContainer h f with
  | zero =>
    obtain ⟨-, rfl⟩ := Prod.ext_iff.mp (Option.some_inj.mp hrun)
    exact hf
  | succ n ih =>
    rw [restoreFrom] at hrun
    simp only [Option.bind_eq_bind, Option.bind_eq_some_iff] at hrun
    obtain ⟨seg, -, hrun⟩ := hrun
    exact ih (by rw [rest_fread, rest_fread, hf, List.drop_nil, List.drop_nil]) hrun

theorem rest_restoreFrom {records : List Record}
    (hsize : ∀ r ∈ records, r.bytes.length = r.container.size.toNat) {i : ℕ}
    {tempContainer : MallocContainer} {h h' : Heap} {f' : Stream}
    (hf : f.rest <+: records.flatMap Record.encode ++ rest)
    (hrun : restoreFrom u records.length i tempContainer h f = some (h', f')) :
    f'.rest = f.rest.drop (records.flatMap Record.encode).length := by
  induction records generalizing i tempContainer h f with
  | nil =>
    obtain ⟨-, rfl⟩ := Prod.ext_iff.mp (Option.some_inj.mp hrun)
    rfl
  | cons r records ih =>
    rw [List.length_cons, restoreFrom] at hrun
    simp only [Option.bind_eq_bind, Option.bind_eq_some_iff] at hrun
    obtain ⟨seg, -, hrun⟩ := hrun
    rw [List.flatMap_cons, Record.encode, List.append_assoc, List.append_assoc] at hf
    have hr : r.bytes.length = r.container.size.toNat := hsize r List.mem_cons_self
    -- the container says how many bytes follow, also where the file is cut short
    have hturn : ((f.rest.drop 32).drop
        (decodeContainer (fread 32 (encodeContainer tempContainer) f).1).size.toNat) =
          f.rest.drop (32 + r.bytes.length) :=
      drop_drop_of_field fun hlength ↦ by rw [container_cut _ hf hlength, hr]
    have hbehind : f.rest.drop (32 + r.bytes.length) <+:
        records.flatMap Record.encode ++ rest := by
      rw [← List.append_assoc] at hf
      have hdrop := drop_prefix _ hf
      rwa [List.length_append, length_encodeContainer] at hdrop
    have hrest := ih (fun r' hr' ↦ hsize r' (List.mem_cons_of_mem r hr'))
      (by rw [rest_fread, rest_fread, hturn]; exact hbehind) hrun
    rw [hrest, rest_fread, rest_fread, hturn, List.drop_drop, List.flatMap_cons, List.length_append,
      Record.encode, List.length_append, length_encodeContainer]

theorem count_cut {n : ℕ} (hn : n < 2 ^ 31) (old : UInt32) (h : f.rest <+: encode 4 n ++ rest)
    (hlength : 4 ≤ f.rest.length) : (freadInt old f).1.toInt32.toInt.toNat = n := by
  obtain ⟨rest', hrest'⟩ := exists_append_of_prefix h (by rwa [length_encode])
  obtain ⟨frest, eof⟩ := f
  obtain rfl : frest = encode 4 n ++ rest' := hrest'
  rw [freadInt_length _ _ hn, toNat_toInt32 hn]

theorem rest_restoreHeapSeg {records : List Record} (hint : records.length < 2 ^ 31)
    (hsize : ∀ r ∈ records, r.bytes.length = r.container.size.toNat)
    (h : f.rest <+: encode 4 records.length ++ records.flatMap Record.encode ++ rest)
    {r : Image} {f' : Stream} (hrun : restoreHeapSeg u q f = some (r, f')) :
    f'.rest = f.rest.drop (4 + (records.flatMap Record.encode).length) := by
  rw [restoreHeapSeg] at hrun
  simp only [Option.bind_eq_bind, Option.bind_eq_some_iff] at hrun
  obtain ⟨⟨heap, f''⟩, hheap, hrun⟩ := hrun
  obtain ⟨-, rfl⟩ := Prod.ext_iff.mp (Option.some_inj.mp hrun)
  rw [List.append_assoc] at h
  by_cases hlength : 4 ≤ f.rest.length
  · rw [count_cut hint _ h hlength] at hheap
    have hbehind := drop_prefix _ h
    rw [length_encode] at hbehind
    rw [← List.drop_drop]
    exact rest_restoreFrom hsize hbehind hheap
  · have hnil : f.rest.drop 4 = [] := List.drop_eq_nil_of_le (by omega)
    rw [← List.drop_drop, hnil, List.drop_nil]
    exact rest_restoreFrom_nil _ hnil hheap

/-! ## A cut file is told by the last flag -/

theorem getLast?_restoreFrameworkData (hshort : f.rest.length < 8) :
    (encode 4 (restoreFrameworkData q f).1.passReceiverContAdd.toNat).getLast? =
      (encode 4 q.passReceiverContAdd.toNat).getLast? :=
  getLast?_freadInt (by rw [rest_fread, List.length_drop]; omega)

theorem flags_restoreHeapSeg {r : Image} {f' : Stream}
    (hrun : restoreHeapSeg u q f = some (r, f')) :
    r.passReceiverContAdd = q.passReceiverContAdd := by
  rw [restoreHeapSeg] at hrun
  simp only [Option.bind_eq_bind, Option.bind_eq_some_iff] at hrun
  obtain ⟨⟨heap, f''⟩, -, hrun⟩ := hrun
  obtain ⟨rfl, -⟩ := Prod.ext_iff.mp (Option.some_inj.mp hrun)
  rfl

/-- A restore from a file that is cut short keeps the last byte of the second flag. -/
theorem getLast?_of_cut {entries : List Entry} {records : List Record} (hw : p.WellFormed entries)
    (hrecords : (entries.map Prod.snd).mapM (recordOf p.heap) = some records) {file : List UInt8}
    (hcut : file <+: p.file records) (hne : file ≠ p.file records) {r : Image} {f' : Stream}
    (hrun : initCkptRestore u q file = some (r, f')) :
    (encode 4 r.passReceiverContAdd.toNat).getLast? =
      (encode 4 q.passReceiverContAdd.toNat).getLast? := by
  rw [initCkptRestore] at hrun
  simp only [Option.bind_eq_bind, Option.bind_eq_some_iff] at hrun
  obtain ⟨⟨restored, f₃⟩, hheap, hrun⟩ := hrun
  obtain ⟨rfl, -⟩ := Prod.ext_iff.mp (Option.some_inj.mp hrun)
  have hlength := length_of_records hrecords
  have hshort : file.length < (p.file records).length :=
    lt_of_le_of_ne hcut.length_le fun h ↦ hne (hcut.eq_of_length h)
  rw [Image.file, hw.count, ← hlength, List.append_assoc, List.append_assoc] at hcut
  have hdata :=
    rest_restoreDataSeg (u := u) (q := q) (f := ⟨file, false⟩) hw.dataSize hw.bssSize hcut
  have hcutStack := drop_prefix _ hcut
  rw [← hdata] at hcutStack
  have hstack := rest_restoreStackSeg (u := u) (q := (restoreDataSeg u q ⟨file, false⟩).1) hcutStack
  have hcutHeap := drop_prefix _ hcutStack
  rw [← hstack] at hcutHeap
  have hrest :=
    rest_restoreHeapSeg (hlength ▸ hw.countInt) (size_of_records hrecords) hcutHeap hheap
  have hflags := flags_restoreHeapSeg hheap
  -- the three sections take their whole lengths, so what is missing is missing from the flags
  have hleft : f₃.rest.length < 8 := by
    rw [hrest, hstack, hdata]
    rw [Image.file, hw.count, ← hlength, saveFrameworkData] at hshort
    simp only [List.length_append, length_encode, List.length_drop] at hshort ⊢
    omega
  rw [getLast?_restoreFrameworkData hleft, hflags]
  rfl

theorem exists_other_flag (v : UInt32) :
    ∃ old : UInt32, (encode 4 v.toNat).getLast? ≠ (encode 4 old.toNat).getLast? := by
  by_contra hall
  push Not at hall
  exact absurd ((hall 0).symm.trans (hall 0xFFFFFFFF)) (by decide)

/-- **A cut file** is restored otherwise than the complete one. -/
theorem not_sameRestore_of_cut {entries : List Entry} (hw : p.WellFormed entries)
    {content file : List UInt8} (hcontent : p.initCkpt = some content) (hcut : file <+: content)
    (hne : file ≠ content) : ¬p.SameRestore entries file content := by
  intro hsame
  rw [initCkpt_eq hw.represents, Option.map_eq_some_iff] at hcontent
  obtain ⟨records, hrecords, rfl⟩ := hcontent
  -- a process whose flag differs in the byte that a cut file leaves alone
  obtain ⟨old, hold⟩ := exists_other_flag p.passReceiverContAdd
  have hq : Image.Fresh { p.unallocated with passReceiverContAdd := old } p :=
    ⟨rfl, rfl, rfl, rfl, HeapSeg.represents_initial _⟩
  have hu := counting_allocates hw.countInt
  obtain ⟨seg, hseg, -⟩ := exists_restore hw hrecords hq hu
  have hrestored := hsame counting _ hq hu
  rw [hseg, Option.map_some, Option.map_eq_some_iff] at hrestored
  obtain ⟨⟨r, f'⟩, hrun, rfl⟩ := hrestored
  exact hold (getLast?_of_cut hw hrecords hcut hne hrun)

end Image

/-! ## Stopping on the way -/

namespace Writing

variable {content : List UInt8} {earlier : Option (List UInt8)} {s : Writing}

/-- The file is the earlier one, or has what is no longer pending of the new one. -/
theorem Run.written (hrun : Run earlier content s) :
    (s.pending = none ∧ s.file = earlier) ∨
      ∃ written rest, s.pending = some rest ∧ written ++ rest = content ∧
        s.file = some written := by
  induction hrun with
  | refl => exact .inl ⟨rfl, rfl⟩
  | tail _ hstep ih =>
    cases hstep with
    | fopen => exact .inr ⟨[], content, rfl, rfl, rfl⟩
    | @fwrite file rest b =>
      rcases ih with ⟨hpending, -⟩ | ⟨written, rest', hpending, happend, hfile⟩
      · exact absurd hpending (by simp)
      · obtain rfl := Option.some_inj.mp hpending
        obtain rfl := Option.some_inj.mp hfile
        exact .inr ⟨file ++ [b], rest, rfl, by simpa using happend, rfl⟩

/-- **A checkpoint that is cut short.** Wherever `init_ckpt` stops, a later start finds the earlier
file, or a beginning of the new one, from which the new state is restored only if it is complete. -/
theorem interrupted {p : Image} {entries : List Entry} (hw : p.WellFormed entries)
    (hcontent : p.initCkpt = some content) (hrun : Run earlier content s) :
    Interrupted p entries earlier content s := by
  apply hrun.written.imp_right
  rintro ⟨written, rest, hpending, happend, hfile⟩
  refine ⟨written, rest, hpending, happend, hfile, by rw [hfile]; rfl, ?_, ?_⟩
  · intro hsame
    by_contra hrest
    refine Image.not_sameRestore_of_cut hw hcontent ⟨rest, happend⟩ (fun heq ↦ hrest ?_) hsame
    exact List.append_cancel_left (happend.trans (heq.symm.trans (List.append_nil _).symm))
  · rintro rfl u q - -
    rw [← happend, List.append_nil]

theorem initCkpt_oneBlock : ∃ content, Image.oneBlock.initCkpt = some content ∧ content ≠ [] := by
  obtain ⟨records, hrecords⟩ : ∃ records, ([⟨10, 0, 200, 2⟩] : List MallocContainer).mapM
      (recordOf Image.oneBlock.heap) = some records := ⟨_, rfl⟩
  refine ⟨Image.oneBlock.file records, ?_, ?_⟩
  · rw [Image.initCkpt_eq Image.oneBlock_wellFormed.represents]
    exact congrArg (Option.map _) hrecords
  · intro hnil
    have hlength := congrArg List.length hnil
    simp [Image.file, Image.saveFrameworkData] at hlength

/-- The stop right after `fopen`. -/
theorem interrupted_opened :
    ∃ content, Image.oneBlock.initCkpt = some content ∧
      Interrupted Image.oneBlock [(1, ⟨10, 0, 200, 2⟩)] none content ⟨some [], some content⟩ := by
  obtain ⟨content, hcontent, -⟩ := initCkpt_oneBlock
  exact ⟨content, hcontent, interrupted Image.oneBlock_wellFormed hcontent (.single .fopen)⟩

/-- A start that finds the empty file accepts it and restores no complete state. -/
theorem not_findsComplete_opened :
    ∃ content, Image.oneBlock.initCkpt = some content ∧
      ∃ s, Run none content s ∧ doesCkptFileExists s.file = true ∧
        ¬FindsComplete Image.oneBlock [(1, ⟨10, 0, 200, 2⟩)] none content s := by
  obtain ⟨content, hcontent, hne⟩ := initCkpt_oneBlock
  refine ⟨content, hcontent, ⟨some [], some content⟩, .single .fopen, rfl, ?_⟩
  rintro (hnone | ⟨file, hfile, complete, hearlier | rfl, hsame⟩)
  · exact absurd hnone (by simp)
  · exact absurd hearlier (by simp)
  · obtain rfl := Option.some_inj.mp hfile
    exact Image.not_sameRestore_of_cut Image.oneBlock_wellFormed hcontent List.nil_prefix hne.symm
      hsame

end Writing

end EntangledMPI.Checkpoint
