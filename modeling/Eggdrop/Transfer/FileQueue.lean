import Eggdrop.Base.CString

/-!
# FileQueue — the files that wait to be sent (transfer.mod/transferqueue.c)

When a recipient has as many transfers as are allowed, files are put into a queue; when a transfer of
theirs is over, `send_next_file` takes the oldest.  Where its directory is kept with a count and the
marker `*`, what stands behind the count is copied over the directory, as far as a pointer's size goes;
and before a queue is flushed, the recipient is copied over the path, as far as a pointer's size goes.

* `flushFileq_eq`: flushing takes away the entries for the recipient, and no others.
* `sendNextFile_iff`: for which queues the right file is tried, and the right entries go.
-/

open List

namespace Eggdrop.Transfer.FileQueue

inductive Fault
  /-- `p[egg_atoi(dir)]` is no place in the directory -/
  | outside
  /-- source and destination of `op_strlcpy`, which are `restrict`, are not apart -/
  | overlap
  /-- the recipient does not fit where the path is -/
  | overflow
  deriving DecidableEq

/-- `fileq_t`: who queued the file is `nick`; `rcpt` (`to`) is to have it. -/
structure Entry where
  dir : CStr
  file : CStr
  nick : CStr
  rcpt : CStr
  deriving DecidableEq

/-- `DCCSEND_OK` and the others. -/
inductive DccSend
  | ok
  | full
  | noSock
  | badFn
  | fEmpty
  | fCopy
  deriving DecidableEq

/-- What is logged, and what is told to users, with what stands in for the `%s`. -/
inductive Message
  | fileArrive (rcpt nick : CStr)
  | logConfull (s nick : CStr)
  | noticeConfull (rcpt : CStr)
  | logSockerr (s nick : CStr)
  | noticeSockerr (rcpt : CStr)
  | copyFailed (file : CStr)
  | filesysBroken (rcpt : CStr)
  | logFileempty (file : CStr)
  | noticeFileempty (rcpt file : CStr)
  deriving DecidableEq

/-- What `send_next_file` leaves behind it: the queue, the arguments of `raw_dcc_send`, if it was
called, and the messages. -/
structure Sent where
  queue : List Entry
  tried : Option (CStr × CStr × CStr)
  out : List Message
  deriving DecidableEq

/-! ### The queue -/

def nickmax : ℕ := 32

/-- The size of a `char *`. -/
def pointerSize : ℕ := 8

/-- `queue_file`. -/
def queueFile (dir file nick rcpt : CStr) (fileq : List Entry) : List Entry :=
  fileq ++ [⟨dir, file, nick.take nickmax, rcpt.take nickmax⟩]

/-- The entry is for this recipient. -/
def isFor (rcpt : CStr) (q : Entry) : Bool := strcaseEq q.rcpt rcpt

/-- The loop of `flush_fileq`, with `i` entries still to be looked at. -/
def flushLoop (rcpt : CStr) : ℕ → List Entry → List Entry
  | 0, fileq => fileq
  | i + 1, fileq => flushLoop rcpt i (if fileq[i]?.any (isFor rcpt) then fileq.eraseIdx i else fileq)

/-- `flush_fileq`. -/
def flushFileq (rcpt : CStr) (fileq : List Entry) : List Entry := flushLoop rcpt fileq.length fileq

/-- The oldest entry for the recipient, and where it is. -/
def oldest (rcpt : CStr) (fileq : List Entry) : Option (ℕ × Entry) :=
  (fileq.findIdx? (isFor rcpt)).bind fun i => fileq[i]?.map (i, ·)

/-! ### Sending -/

/-- `%s/%s`, or the file alone. -/
def inDir (dir file : CStr) : CStr := if dir = [] then file else dir ++ '/' :: file

/-- The path, for a directory with the marker in front, and for one without. -/
def pathOf (q : Entry) : CStr :=
  match q.dir with
  | '*' :: dir => dir ++ '/' :: q.file
  | dir => inDir dir q.file

/-- What stands behind `strchr(dir, '*')`. -/
def afterMarker (dir : CStr) : Option CStr := (dir.dropWhile (· != '*')).tail?

/-- `op_strlcpy(dir, &dir[i], sizeof(dir))`. -/
def copyBack (dir : CStr) (i : ℤ) : Except Fault CStr :=
  if 0 ≤ i ∧ i ≤ dir.length then
    let s := (dir.drop i.toNat).take (pointerSize - 1)
    if s.length < i.toNat then .ok s else .error .overlap
  else .error .outside

/-- `op_strlcpy(s, to, sizeof(s))`, where there is room for `s`. -/
def copyOver (s rcpt : CStr) : Except Fault CStr :=
  let t := rcpt.take (pointerSize - 1)
  if t.length ≤ s.length then .ok t else .error .overflow

section Send

variable (rawDccSend : CStr → CStr → CStr → DccSend)

/-- `send_next_file`, from where the entry `i` has the directory from which the path is made. -/
def deliver (i : ℕ) (q : Entry) (fileq : List Entry) : Except Fault Sent :=
  let s := pathOf q
  let tried := some (s, q.rcpt, q.nick)
  match rawDccSend s q.rcpt q.nick with
  | .ok =>
    .ok ⟨fileq.eraseIdx i, tried, if strcaseEq q.rcpt q.nick then [] else [.fileArrive q.rcpt q.nick]⟩
  | .full => do
    let t ← copyOver s q.rcpt
    .ok ⟨flushFileq t fileq, tried, [.logConfull s q.nick, .noticeConfull q.rcpt]⟩
  | .noSock => do
    let t ← copyOver s q.rcpt
    .ok ⟨flushFileq t fileq, tried, [.logSockerr s q.nick, .noticeSockerr q.rcpt]⟩
  | .fCopy => do
    let t ← copyOver s q.rcpt
    .ok ⟨flushFileq t fileq, tried, [.copyFailed q.file, .filesysBroken q.rcpt]⟩
  | .fEmpty =>
    .ok ⟨fileq.eraseIdx i, tried, [.logFileempty q.file, .noticeFileempty q.rcpt q.file]⟩
  | .badFn => .ok ⟨fileq.eraseIdx i, tried, []⟩

/-- `send_next_file`, which calls itself when the directory has no marker; with the number of calls
there is room for.  The path that is made before a directory is copied back is given up again. -/
def sendNextFile (rcpt : CStr) : ℕ → List Entry → Option (Except Fault Sent)
  | 0, _ => none
  | calls + 1, fileq =>
    match oldest rcpt fileq with
    | none => some (.ok ⟨fileq, none, []⟩)
    | some (i, q) =>
      if q.dir.head? = some '*' then some (deliver rawDccSend i q fileq)
      else
        match afterMarker q.dir with
        | none => sendNextFile rcpt calls fileq
        | some p => some do
          let dir ← copyBack q.dir (q.dir.length - p.length + eggAtoi q.dir)
          deliver rawDccSend i { q with dir } (fileq.set i { q with dir })

end Send

/-! ### What it is for -/

/-- The path that an entry stands for. -/
def standsFor (q : Entry) : Option CStr :=
  match q.dir with
  | '*' :: dir => some (dir ++ '/' :: q.file)
  | dir => (afterMarker dir).map (inDir · q.file)

/-- A failure that is not that of a file: a further file would fail as well. -/
def DccSend.isWide : DccSend → Bool
  | .full | .noSock | .fCopy => true
  | .ok | .badFn | .fEmpty => false

/-- The queue, split at the oldest entry for the recipient. -/
structure Oldest (rcpt : CStr) (fileq l : List Entry) (q : Entry) (r : List Entry) : Prop where
  split : fileq = l ++ q :: r
  before : ∀ q' ∈ l, isFor rcpt q' = false
  isFor : isFor rcpt q = true

/-- It is over after some calls.  Where no file is queued for the recipient, nothing happens; otherwise
the oldest is tried, under its path, and it goes, or all do that are for the recipient. -/
def Right (rawDccSend : CStr → CStr → CStr → DccSend) (rcpt : CStr) (fileq : List Entry) : Prop :=
  ∃ calls s, sendNextFile rawDccSend rcpt calls fileq = some (.ok s) ∧
    ((∀ q ∈ fileq, isFor rcpt q = false) → s.tried = none ∧ s.queue = fileq) ∧
    ∀ l q r, Oldest rcpt fileq l q r → ∃ path, standsFor q = some path ∧
      s.tried = some (path, q.rcpt, q.nick) ∧
      s.queue = if (rawDccSend path q.rcpt q.nick).isWide then fileq.filter fun q => !isFor rcpt q
        else l ++ r

/-- The directory has the marker in front; or what is copied back, as far as it goes, lies behind where
it comes to, and is what stands behind the marker, with or without the marker. -/
inductive Decodes (dir : CStr) : Prop
  | absolute (rest : CStr) (h : dir = '*' :: rest)
  | marked (lead rest : CStr) (i : ℕ) (hdir : dir = lead ++ '*' :: rest) (hlead : '*' ∉ lead)
      (hi : (i : ℤ) = lead.length + 1 + eggAtoi dir) (hle : i ≤ dir.length)
      (hapart : ((dir.drop i).take 7).length < i)
      (h : ((dir.drop i).take 7 = rest ∧ rest.head? ≠ some '*') ∨
        (rest ≠ [] ∧ (dir.drop i).take 7 = '*' :: rest))

/-- The entry is decoded; and if all entries for the recipient are to go, its name has at most seven
characters, and not more than the path. -/
structure Sendable (rawDccSend : CStr → CStr → CStr → DccSend) (q : Entry) : Prop where
  decodes : Decodes q.dir
  short : ∀ path, standsFor q = some path → (rawDccSend path q.rcpt q.nick).isWide = true →
    q.rcpt.length ≤ 7 ∧ q.rcpt.length ≤ path.length

/-! ### Flushing -/

section Queue

variable {rcpt : CStr} {fileq l r : List Entry} {q : Entry}

theorem flushLoop_eq (rcpt : CStr) {i : ℕ} (h : i ≤ fileq.length) :
    flushLoop rcpt i fileq = ((fileq.take i).filter fun q => !isFor rcpt q) ++ fileq.drop i := by
  induction i generalizing fileq with
  | zero => rfl
  | succ i ih =>
    rw [flushLoop, take_add_one, filter_append, append_assoc, getElem?_eq_getElem h]
    split
    · next hfor =>
      have hlen : i ≤ (fileq.eraseIdx i).length := by
        rw [length_eraseIdx_of_lt h]
        omega
      have htake : (fileq.take i).length = i := length_take_of_le (by omega)
      have hnone : [fileq[i]].filter (fun q => !isFor rcpt q) = [] := by simpa using hfor
      rw [ih hlen, Option.toList_some, hnone, nil_append, eraseIdx_eq_take_drop_succ,
        take_left' htake, drop_left' htake]
    · next hfor =>
      have hsome : [fileq[i]].filter (fun q => !isFor rcpt q) = [fileq[i]] := by simpa using hfor
      rw [ih (by omega), Option.toList_some, hsome, singleton_append, getElem_cons_drop]

theorem flushFileq_eq (rcpt : CStr) (fileq : List Entry) :
    flushFileq rcpt fileq = fileq.filter fun q => !isFor rcpt q := by
  rw [flushFileq, flushLoop_eq rcpt le_rfl, take_length, drop_length, append_nil]

/-! ### The oldest entry -/

theorem oldest_eq_none (h : ∀ q ∈ fileq, isFor rcpt q = false) : oldest rcpt fileq = none := by
  rw [oldest, findIdx?_eq_none_iff.2 h]
  rfl

theorem Oldest.eq (h : Oldest rcpt fileq l q r) : oldest rcpt fileq = some (l.length, q) := by
  obtain ⟨rfl, hbefore, hfor⟩ := h
  have hidx : findIdx? (FileQueue.isFor rcpt) (l ++ q :: r) = some l.length := by
    rw [findIdx?_append, findIdx?_eq_none_iff.2 hbefore, findIdx?_cons, hfor]
    simp
  rw [oldest, hidx, Option.bind_some, getElem?_append_right le_rfl, Nat.sub_self]
  rfl

theorem Oldest.unique (h : Oldest rcpt fileq l q r) {l' r' : List Entry} {q' : Entry}
    (h' : Oldest rcpt fileq l' q' r') : l = l' ∧ q = q' ∧ r = r' := by
  have heq := Option.some.inj (h.eq.symm.trans h'.eq)
  obtain ⟨hl, hrest⟩ := append_inj (h.split.symm.trans h'.split) (congrArg Prod.fst heq)
  exact ⟨hl, cons.inj hrest⟩

theorem exists_oldest (rcpt : CStr) (fileq : List Entry) :
    (∀ q ∈ fileq, isFor rcpt q = false) ∨ ∃ l q r, Oldest rcpt fileq l q r := by
  cases hfind : fileq.find? (isFor rcpt) with
  | none =>
    left
    simpa using find?_eq_none.1 hfind
  | some q =>
    obtain ⟨hfor, l, r, hsplit, hbefore⟩ := find?_eq_some_iff_append.1 hfind
    right
    exact ⟨l, q, r, hsplit, by simpa using hbefore, hfor⟩

end Queue

/-! ### Paths -/

section Paths

variable {dir rest file : CStr}

theorem inDir_injective (file : CStr) : Function.Injective (inDir · file) := by
  have hne (dir : CStr) : file ≠ dir ++ '/' :: file := by
    intro h
    have hlen := congrArg length h
    rw [length_append, length_cons] at hlen
    omega
  intro a b h
  dsimp only [inDir] at h
  split at h <;> split at h
  · next ha hb => rw [ha, hb]
  · exact absurd h (hne b)
  · exact absurd h.symm (hne a)
  · exact append_cancel_right h

/-- The path for a directory is that for a text behind a marker. -/
theorem pathOf_eq_iff {q : Entry} : pathOf q = inDir rest q.file ↔
    (q.dir = rest ∧ rest.head? ≠ some '*') ∨ (rest ≠ [] ∧ q.dir = '*' :: rest) := by
  rw [pathOf]
  split
  · next dir hdir =>
    rw [hdir]
    constructor
    · intro h
      rw [inDir] at h
      split at h
      · have hlen := congrArg length h
        rw [length_append, length_cons] at hlen
        omega
      · next hne => exact .inr ⟨hne, by rw [append_cancel_right h]⟩
    · rintro (⟨rfl, hhead⟩ | ⟨hne, heq⟩)
      · exact absurd rfl hhead
      · rw [inDir, if_neg hne, (cons.inj heq).2]
  · next hdir =>
    rw [(inDir_injective q.file).eq_iff]
    constructor
    · intro h
      refine .inl ⟨h, ?_⟩
      intro hhead
      obtain ⟨t, ht⟩ := head?_eq_some_iff.1 hhead
      exact hdir t (h.trans ht)
    · rintro (⟨h, -⟩ | ⟨-, heq⟩)
      · exact h
      · exact absurd heq (hdir rest)

theorem afterMarker_eq_some {lead : CStr} (h : '*' ∉ lead) (rest : CStr) :
    afterMarker (lead ++ '*' :: rest) = some rest := by
  have hdrop : (lead ++ '*' :: rest).dropWhile (· != '*') = '*' :: rest := by
    rw [dropWhile_append_of_pos]
    · rfl
    · intro c hc
      rw [bne_iff_ne]
      rintro rfl
      exact h hc
  rw [afterMarker, hdrop]
  rfl

theorem exists_lead (h : afterMarker dir = some rest) :
    ∃ lead, dir = lead ++ '*' :: rest ∧ '*' ∉ lead := by
  refine ⟨dir.takeWhile (· != '*'), ?_, ?_⟩
  · rw [afterMarker] at h
    cases hdrop : dir.dropWhile (· != '*') with
    | nil =>
      rw [hdrop] at h
      cases h
    | cons c t =>
      have hc := head?_dropWhile_not (· != '*') dir
      rw [hdrop] at h hc
      obtain rfl : c = '*' := by simpa using hc
      obtain rfl : t = rest := Option.some.inj h
      rw [← hdrop, takeWhile_append_dropWhile]
  · intro hmem
    have hne := mem_takeWhile_imp hmem
    simp at hne

theorem standsFor_eq {q : Entry} (h : q.dir.head? ≠ some '*') :
    standsFor q = (afterMarker q.dir).map (inDir · q.file) := by
  rw [standsFor]
  split
  · next dir hdir =>
    rw [hdir] at h
    exact absurd rfl h
  · rfl

end Paths

/-! ### One entry -/

section Deliver

variable {rawDccSend : CStr → CStr → CStr → DccSend} {rcpt : CStr} {fileq l r : List Entry} {q : Entry}

/-- What is delivered, where the recipient fits into the room of the path, and where it need not. -/
theorem deliver_spec (rawDccSend : CStr → CStr → CStr → DccSend) (i : ℕ) (q : Entry)
    (fileq : List Entry) :
    ∃ out, deliver rawDccSend i q fileq =
      if (rawDccSend (pathOf q) q.rcpt q.nick).isWide = true then
        if (q.rcpt.take 7).length ≤ (pathOf q).length then
          .ok ⟨flushFileq (q.rcpt.take 7) fileq, some (pathOf q, q.rcpt, q.nick), out⟩
        else .error .overflow
      else .ok ⟨fileq.eraseIdx i, some (pathOf q, q.rcpt, q.nick), out⟩ := by
  have hover (out : List Message) : (do
      let t ← copyOver (pathOf q) q.rcpt
      .ok ⟨flushFileq t fileq, some (pathOf q, q.rcpt, q.nick), out⟩ : Except Fault Sent) =
      if (q.rcpt.take 7).length ≤ (pathOf q).length then
        .ok ⟨flushFileq (q.rcpt.take 7) fileq, some (pathOf q, q.rcpt, q.nick), out⟩
      else .error .overflow := by
    rw [copyOver, pointerSize]
    by_cases hfit : (q.rcpt.take 7).length ≤ (pathOf q).length
    · rw [if_pos hfit, if_pos hfit]
      rfl
    · rw [if_neg hfit, if_neg hfit]
      rfl
  rw [deliver]
  cases rawDccSend (pathOf q) q.rcpt q.nick with
  | ok => exact ⟨_, rfl⟩
  | full => exact ⟨_, hover _⟩
  | noSock => exact ⟨_, hover _⟩
  | badFn => exact ⟨_, rfl⟩
  | fEmpty => exact ⟨_, rfl⟩
  | fCopy => exact ⟨_, hover _⟩

theorem isFor_congr {rcpt rcpt' : CStr} (h : strcaseEq rcpt rcpt' = true) (q : Entry) :
    isFor rcpt q = isFor rcpt' q := by
  rw [isFor, isFor, Bool.eq_iff_iff, strcaseEq_iff, strcaseEq_iff, strcaseEq_iff.1 h]

/-- An entry in its place in the queue: its path is tried, and the right entries go. -/
theorem deliver_right_iff (hfor : isFor rcpt q = true) (path : CStr) :
    (∃ s, deliver rawDccSend l.length q (l ++ q :: r) = .ok s ∧
      s.tried = some (path, q.rcpt, q.nick) ∧
      s.queue = if (rawDccSend path q.rcpt q.nick).isWide = true then
        (l ++ q :: r).filter fun q => !isFor rcpt q else l ++ r) ↔
    pathOf q = path ∧ ((rawDccSend path q.rcpt q.nick).isWide = true →
      q.rcpt.length ≤ 7 ∧ q.rcpt.length ≤ path.length) := by
  obtain ⟨out, hdeliver⟩ := deliver_spec rawDccSend l.length q (l ++ q :: r)
  have herase : (l ++ q :: r).eraseIdx l.length = l ++ r := by
    rw [eraseIdx_append_of_length_le le_rfl, Nat.sub_self, eraseIdx_cons_zero]
  rw [hdeliver]
  constructor
  · rintro ⟨s, hs, htried, hqueue⟩
    have hpath : pathOf q = path := by
      split at hs
      · split at hs
        · cases hs
          exact congrArg Prod.fst (Option.some.inj htried)
        · cases hs
      · cases hs
        exact congrArg Prod.fst (Option.some.inj htried)
    refine ⟨hpath, ?_⟩
    rw [← hpath] at hqueue ⊢
    intro hwide
    rw [if_pos hwide] at hs hqueue
    split at hs
    · next hfit =>
      cases hs
      -- the entry itself is gone
      have hgone : q ∉ flushFileq (q.rcpt.take 7) (l ++ q :: r) := by
        intro hmem
        have hkept : q ∈ (l ++ q :: r).filter fun q => !isFor rcpt q := hqueue ▸ hmem
        rw [mem_filter, hfor] at hkept
        cases hkept.2
      have hcut : isFor (q.rcpt.take 7) q = true := by
        apply eq_true_of_ne_false
        intro hnot
        rw [flushFileq_eq, mem_filter, hnot] at hgone
        exact hgone ⟨mem_append_right _ mem_cons_self, rfl⟩
      have hlen := congrArg length (strcaseEq_iff.1 hcut)
      rw [length_map, length_map] at hlen
      rw [hlen]
      exact ⟨length_take_le _ _, hfit⟩
    · cases hs
  · rintro ⟨rfl, hshort⟩
    by_cases hwide : (rawDccSend (pathOf q) q.rcpt q.nick).isWide = true
    · obtain ⟨hseven, hfit⟩ := hshort hwide
      rw [if_pos hwide, take_of_length_le hseven, if_pos hfit, if_pos hwide]
      refine ⟨_, rfl, rfl, ?_⟩
      show flushFileq q.rcpt (l ++ q :: r) = _
      rw [flushFileq_eq]
      apply filter_congr
      intro q' _
      rw [isFor_congr hfor]
    · rw [if_neg hwide, if_neg hwide]
      exact ⟨_, rfl, rfl, herase⟩

end Deliver

/-! ### One call -/

section Send

variable {rawDccSend : CStr → CStr → CStr → DccSend} {rcpt : CStr} {fileq l r : List Entry} {q : Entry}

theorem copyBack_eq_ok {dir d : CStr} {i : ℤ} :
    copyBack dir i = .ok d ↔
      ∃ k : ℕ, (k : ℤ) = i ∧ k ≤ dir.length ∧ d = (dir.drop k).take 7 ∧ d.length < k := by
  rw [copyBack, pointerSize]
  split
  · next hin =>
    have hcast : (i.toNat : ℤ) = i := Int.toNat_of_nonneg hin.1
    dsimp only
    split
    · next hapart =>
      rw [Except.ok.injEq]
      constructor
      · rintro rfl
        exact ⟨i.toNat, hcast, by omega, rfl, hapart⟩
      · rintro ⟨k, rfl, -, rfl, -⟩
        rfl
    · next hapart =>
      constructor
      · intro h
        cases h
      · rintro ⟨k, rfl, -, rfl, hlt⟩
        exact absurd hlt hapart
  · next hout =>
    constructor
    · intro h
      cases h
    · rintro ⟨k, rfl, hle, -⟩
      exact absurd ⟨by omega, by omega⟩ hout

theorem sendNextFile_absolute (h : Oldest rcpt fileq l q r) (hdir : q.dir.head? = some '*')
    (calls : ℕ) :
    sendNextFile rawDccSend rcpt (calls + 1) fileq =
      some (deliver rawDccSend l.length q (l ++ q :: r)) := by
  rw [sendNextFile, h.eq, ← h.split]
  exact if_pos hdir

theorem sendNextFile_marked (h : Oldest rcpt fileq l q r) (hdir : q.dir.head? ≠ some '*') {p : CStr}
    (hmarker : afterMarker q.dir = some p) (calls : ℕ) :
    sendNextFile rawDccSend rcpt (calls + 1) fileq =
      some (copyBack q.dir (q.dir.length - p.length + eggAtoi q.dir) >>= fun dir =>
        deliver rawDccSend l.length { q with dir } (l ++ { q with dir } :: r)) := by
  have hset (q' : Entry) : fileq.set l.length q' = l ++ q' :: r := by
    rw [h.split, set_append_right _ _ le_rfl, Nat.sub_self, set_cons_zero]
  rw [sendNextFile, h.eq]
  dsimp only
  rw [if_neg hdir, hmarker]
  simp only [hset]

theorem sendNextFile_none (h : Oldest rcpt fileq l q r) (hdir : q.dir.head? ≠ some '*')
    (hmarker : afterMarker q.dir = none) (calls : ℕ) :
    sendNextFile rawDccSend rcpt calls fileq = none := by
  induction calls with
  | zero => rfl
  | succ calls ih =>
    rw [sendNextFile, h.eq]
    dsimp only
    rw [if_neg hdir, hmarker]
    exact ih

theorem right_iff (h : Oldest rcpt fileq l q r) :
    Right rawDccSend rcpt fileq ↔ ∃ path, standsFor q = some path ∧ ∃ calls s,
      sendNextFile rawDccSend rcpt calls fileq = some (.ok s) ∧
      s.tried = some (path, q.rcpt, q.nick) ∧
      s.queue = if (rawDccSend path q.rcpt q.nick).isWide = true then
        fileq.filter fun q => !isFor rcpt q else l ++ r := by
  constructor
  · rintro ⟨calls, s, hrun, -, hright⟩
    obtain ⟨path, hpath, htried, hqueue⟩ := hright l q r h
    exact ⟨path, hpath, calls, s, hrun, htried, hqueue⟩
  · rintro ⟨path, hpath, calls, s, hrun, htried, hqueue⟩
    refine ⟨calls, s, hrun, ?_, ?_⟩
    · intro hno
      have hfor := hno q (by rw [h.split]; simp)
      rw [h.isFor] at hfor
      cases hfor
    · intro l' q' r' h'
      obtain ⟨rfl, rfl, rfl⟩ := h.unique h'
      exact ⟨path, hpath, htried, hqueue⟩

theorem right_absolute (h : Oldest rcpt fileq l q r) {rest : CStr} (hdir : q.dir = '*' :: rest) :
    Right rawDccSend rcpt fileq ↔ Sendable rawDccSend q := by
  have hhead : q.dir.head? = some '*' := by
    rw [hdir]
    rfl
  have hpath : standsFor q = some (pathOf q) := by
    rw [standsFor, pathOf, hdir]
    rfl
  have hdeliver := @deliver_right_iff rawDccSend rcpt l r q h.isFor (pathOf q)
  rw [← h.split] at hdeliver
  rw [right_iff h]
  constructor
  · rintro ⟨path, hp, calls, s, hrun, hs⟩
    obtain rfl : pathOf q = path := Option.some.inj (hpath.symm.trans hp)
    refine ⟨.absolute rest hdir, ?_⟩
    intro path hp
    obtain rfl : pathOf q = path := Option.some.inj (hpath.symm.trans hp)
    cases calls with
    | zero => cases hrun
    | succ calls =>
      rw [sendNextFile_absolute h hhead, Option.some.injEq, ← h.split] at hrun
      exact (hdeliver.1 ⟨s, hrun, hs⟩).2
  · intro hsend
    obtain ⟨s, hrun, hs⟩ := hdeliver.2 ⟨rfl, hsend.short _ hpath⟩
    refine ⟨pathOf q, hpath, 1, s, ?_, hs⟩
    rw [sendNextFile_absolute h hhead, ← h.split, hrun]

theorem decodes_iff {dir lead rest : CStr} (hdir : dir = lead ++ '*' :: rest) (hlead : '*' ∉ lead)
    (hhead : dir.head? ≠ some '*') :
    Decodes dir ↔ ∃ d, copyBack dir (dir.length - rest.length + eggAtoi dir) = .ok d ∧
      ((d = rest ∧ rest.head? ≠ some '*') ∨ (rest ≠ [] ∧ d = '*' :: rest)) := by
  have hlen : (dir.length : ℤ) - rest.length + eggAtoi dir = lead.length + 1 + eggAtoi dir := by
    rw [hdir, length_append, length_cons]
    push_cast
    omega
  constructor
  · rintro (⟨rest', rfl⟩ | ⟨lead', rest', i, hdir', hlead', hi, hle, hapart, h⟩)
    · exact absurd rfl hhead
    · have hsame : rest = rest' := by
        have hmarker := afterMarker_eq_some hlead rest
        rw [← hdir, hdir', afterMarker_eq_some hlead'] at hmarker
        exact (Option.some.inj hmarker).symm
      subst hsame
      have hleads : lead.length = lead'.length := by
        have hlength := congrArg length (hdir.symm.trans hdir')
        rw [length_append, length_append] at hlength
        omega
      refine ⟨_, copyBack_eq_ok.2 ⟨i, ?_, hle, rfl, hapart⟩, h⟩
      rw [hi, hlen, hleads]
  · rintro ⟨d, hcopy, h⟩
    obtain ⟨k, hk, hle, rfl, hapart⟩ := copyBack_eq_ok.1 hcopy
    exact .marked lead rest k hdir hlead (hk.trans hlen) hle hapart h

theorem right_marked (h : Oldest rcpt fileq l q r) (hhead : q.dir.head? ≠ some '*')
    {lead rest : CStr} (hdir : q.dir = lead ++ '*' :: rest) (hlead : '*' ∉ lead) :
    Right rawDccSend rcpt fileq ↔ Sendable rawDccSend q := by
  have hmarker : afterMarker q.dir = some rest := by
    rw [hdir]
    exact afterMarker_eq_some hlead rest
  have hpath : standsFor q = some (inDir rest q.file) := by
    rw [standsFor_eq hhead, hmarker]
    rfl
  -- the entry with its new directory is one for the recipient as well
  have hfilter (d : CStr) : (l ++ { q with dir := d } :: r).filter (fun q => !isFor rcpt q) =
      fileq.filter fun q => !isFor rcpt q := by
    have hfor : isFor rcpt { q with dir := d } = true := h.isFor
    rw [h.split, filter_append, filter_append, filter_cons_of_neg (by simp [hfor]),
      filter_cons_of_neg (by simp [h.isFor])]
  have hdeliver (d : CStr) := @deliver_right_iff rawDccSend rcpt l r { q with dir := d } h.isFor
    (inDir rest q.file)
  simp only [hfilter, @pathOf_eq_iff rest { q with dir := _ }] at hdeliver
  rw [right_iff h]
  constructor
  · rintro ⟨path, hp, calls, s, hrun, hs⟩
    obtain rfl := Option.some.inj (hpath.symm.trans hp)
    cases calls with
    | zero => cases hrun
    | succ calls =>
      rw [sendNextFile_marked h hhead hmarker, Option.some.injEq] at hrun
      cases hcopy : copyBack q.dir (q.dir.length - rest.length + eggAtoi q.dir) with
      | error e =>
        rw [hcopy] at hrun
        cases hrun
      | ok d =>
        rw [hcopy] at hrun
        obtain ⟨hd, hshort⟩ := (hdeliver d).1 ⟨s, hrun, hs⟩
        refine ⟨(decodes_iff hdir hlead hhead).2 ⟨d, hcopy, hd⟩, ?_⟩
        intro path hp
        obtain rfl := Option.some.inj (hpath.symm.trans hp)
        exact hshort
  · intro hsend
    obtain ⟨d, hcopy, hd⟩ := (decodes_iff hdir hlead hhead).1 hsend.decodes
    obtain ⟨s, hrun, hs⟩ := (hdeliver d).2 ⟨hd, hsend.short _ hpath⟩
    refine ⟨_, hpath, 1, s, ?_, hs⟩
    rw [sendNextFile_marked h hhead hmarker, hcopy]
    exact congrArg some hrun

/-- No marker. -/
theorem not_right (h : Oldest rcpt fileq l q r) (hhead : q.dir.head? ≠ some '*')
    (hmarker : afterMarker q.dir = none) : ¬ Right rawDccSend rcpt fileq := by
  rintro ⟨calls, s, hrun, -⟩
  rw [sendNextFile_none h hhead hmarker] at hrun
  cases hrun

end Send

/-- The oldest file is tried under its path, and the right entries go, exactly if its directory is
decoded, and if it has a short recipient when all entries of theirs are to go. -/
theorem sendNextFile_iff (rawDccSend : CStr → CStr → CStr → DccSend) (rcpt : CStr)
    (fileq : List Entry) :
    Right rawDccSend rcpt fileq ↔ ∀ l q r, Oldest rcpt fileq l q r → Sendable rawDccSend q := by
  rcases exists_oldest rcpt fileq with hnone | ⟨l, q, r, h⟩
  · have hno (l : List Entry) (q : Entry) (r : List Entry) (h : Oldest rcpt fileq l q r) : False := by
      have hfor := hnone q (by rw [h.split]; simp)
      rw [h.isFor] at hfor
      cases hfor
    constructor
    · intro _ l q r h
      exact (hno l q r h).elim
    · intro _
      refine ⟨1, ⟨fileq, none, []⟩, ?_, fun _ => ⟨rfl, rfl⟩, fun l q r h => (hno l q r h).elim⟩
      rw [sendNextFile, oldest_eq_none hnone]
  · have hone : (∀ l q r, Oldest rcpt fileq l q r → Sendable rawDccSend q) ↔ Sendable rawDccSend q := by
      constructor
      · intro hall
        exact hall l q r h
      · intro hsend l' q' r' h'
        obtain ⟨-, rfl, -⟩ := h.unique h'
        exact hsend
    rw [hone]
    by_cases hhead : q.dir.head? = some '*'
    · obtain ⟨rest, hdir⟩ := head?_eq_some_iff.1 hhead
      exact right_absolute h hdir
    · cases hmarker : afterMarker q.dir with
      | none =>
        refine iff_of_false (not_right h hhead hmarker) ?_
        rintro ⟨hdecodes, -⟩
        cases hdecodes with
        | absolute rest hdir =>
          rw [hdir] at hhead
          exact hhead rfl
        | marked lead rest i hdir hlead =>
          rw [hdir, afterMarker_eq_some hlead] at hmarker
          cases hmarker
      | some rest =>
        obtain ⟨lead, hdir, hlead⟩ := exists_lead hmarker
        exact right_marked h hhead hdir hlead

/-- A file of the directory `p` below `/`: what is tried is `p/f`. -/
theorem not_sendNextFile : ¬ ∀ (rawDccSend : CStr → CStr → CStr → DccSend) (rcpt : CStr)
    (fileq : List Entry), Right rawDccSend rcpt fileq := by
  intro h
  obtain ⟨calls, s, hrun, -, hright⟩ := h (fun _ _ _ => .ok) ['b']
    (queueFile ['1', '*', '/', 'p'] ['f'] ['a'] ['b'] [])
  obtain ⟨path, hpath, htried, -⟩ := hright [] ⟨['1', '*', '/', 'p'], ['f'], ['a'], ['b']⟩ []
    ⟨rfl, fun _ hmem => absurd hmem not_mem_nil, rfl⟩
  obtain rfl : ['/', 'p', '/', 'f'] = path := Option.some.inj hpath
  cases calls with
  | zero => cases hrun
  | succ calls =>
    obtain rfl := Except.ok.inj (Option.some.inj hrun)
    cases htried

end Eggdrop.Transfer.FileQueue
