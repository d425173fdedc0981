import Eggdrop.Transfer.Receive

/-!
# ReceiveRuns — runs in which files are received

* `Fine`: where the bytes of a transfer are: in the file, in a buffer that waits for a thread, or in
  its own buffer, in this order.
* `Inv.put`, `Inv.drop`: one transfer may change, or go, while the others keep what they see.
* `Inv.next`: every step that is in order keeps the invariant.
* `received_throughout`: so does every run.
-/

namespace Eggdrop.Receive

open SwapRemove

variable {s s' : State} {idx k f : ℕ} {x y : Xfer} {buf : List UInt8}

/-! ### What a transfer sees -/

/-- The buffers of a file that are in flight, and the file. -/
structure View where
  sub : List Flush
  posted : List Flush
  file : Option File

def State.view (s : State) (f : ℕ) : View :=
  ⟨s.submitted.filter (·.f = f), s.posted.filter (·.f = f), s.files[f]?⟩

/-- The bytes that have come are in the file, in a buffer that waits for a thread, and in the buffer of
the transfer. -/
structure Fine (idx : ℕ) (x : Xfer) (v : View) (file : File) : Prop where
  stored : v.file = some file
  received : x.received = file.content ++ v.sub.flatMap Flush.data ++ x.wbuf
  isOpen : x.closed = false ∨ v.sub ≠ [] → file.isOpen = true
  flights : x.inFlight = v.sub.length + v.posted.length
  one : v.sub.length ≤ 1
  empty : x.inFlight ≠ 0 → x.wbuf = []
  here : ∀ c ∈ v.sub ++ v.posted, c.dccIdx = idx
  closing : ∀ c ∈ v.sub, c.closeAfter = true → x.closed = true
  short : x.wbuf.length < xferWbufSize / 2

/-- Every transfer is in order, no two have one file, and every buffer is of a transfer. -/
structure Inv (s : State) : Prop where
  fine : ∀ idx x, s.recvAt idx = some x → ∃ file, Fine idx x (s.view x.f) file
  apart : ∀ i j x y, s.recvAt i = some x → s.recvAt j = some y → x.f = y.f → i = j
  owned : ∀ c ∈ s.flushes, ∃ i x, s.recvAt i = some x ∧ x.f = c.f
  delivered : ∀ d ∈ s.delivered, d.content = d.received

theorem mem_flushes_iff {c : Flush} :
    c ∈ s.flushes ↔ c ∈ (s.view c.f).sub ++ (s.view c.f).posted := by
  simp [State.flushes, State.view]

/-! ### One transfer changes -/

theorem Inv.put (h : Inv s) (hx : s.recvAt idx = some x) (hf : y.f = x.f)
    (hat : ∀ k, s'.recvAt k = if k = idx then some y else s.recvAt k)
    (hview : ∀ f, f ≠ x.f → s'.view f = s.view f) (hfine : ∃ file, Fine idx y (s'.view x.f) file)
    (hdelivered : ∀ d ∈ s'.delivered, d.content = d.received) : Inv s' := by
  have hother : ∀ {k z}, k ≠ idx → s'.recvAt k = some z → s.recvAt k = some z ∧ z.f ≠ x.f := by
    intro k z hk hz
    rw [hat k, if_neg hk] at hz
    exact ⟨hz, fun heq => hk (h.apart k idx z x hz hx heq)⟩
  refine ⟨fun k z hz => ?_, fun i j u v hu hv heq => ?_, fun c hc => ?_, hdelivered⟩
  · by_cases hk : k = idx
    · obtain rfl := hk
      rw [hat k, if_pos rfl] at hz
      obtain rfl := Option.some.inj hz
      rw [hf]
      exact hfine
    · obtain ⟨hz, hne⟩ := hother hk hz
      rw [hview z.f hne]
      exact h.fine k z hz
  · by_cases hi : i = idx
    · by_cases hj : j = idx
      · rw [hi, hj]
      · rw [hat i, if_pos hi] at hu
        obtain rfl := Option.some.inj hu
        exact absurd (heq.symm.trans hf) (hother hj hv).2
    · by_cases hj : j = idx
      · rw [hat j, if_pos hj] at hv
        obtain rfl := Option.some.inj hv
        exact absurd (heq.trans hf) (hother hi hu).2
      · exact h.apart i j u v (hother hi hu).1 (hother hj hv).1 heq
  · by_cases hc' : c.f = x.f
    · exact ⟨idx, y, by rw [hat idx, if_pos rfl], hf.trans hc'.symm⟩
    · rw [mem_flushes_iff, hview c.f hc', ← mem_flushes_iff] at hc
      obtain ⟨i, z, hz, hzf⟩ := h.owned c hc
      have hi : i ≠ idx := by
        rintro rfl
        obtain rfl := Option.some.inj (hx.symm.trans hz)
        exact hc' hzf.symm
      exact ⟨i, z, by rw [hat i, if_neg hi, hz], hzf⟩

theorem Inv.drop (h : Inv s) (hx : s.recvAt idx = some x) (hflights : x.inFlight ≤ 0)
    (hat : ∀ k, s'.recvAt k = if k = idx then none else s.recvAt k)
    (hview : ∀ f, s'.view f = s.view f) (hdelivered : s'.delivered = s.delivered) : Inv s' := by
  have hother : ∀ {k z}, s'.recvAt k = some z → s.recvAt k = some z := by
    intro k z hz
    rw [hat k] at hz
    split at hz
    · cases hz
    · exact hz
  refine ⟨fun k z hz => ?_, fun i j u v hu hv heq => ?_, fun c hc => ?_, ?_⟩
  · rw [hview]
    exact h.fine k z (hother hz)
  · exact h.apart i j u v (hother hu) (hother hv) heq
  · rw [mem_flushes_iff, hview, ← mem_flushes_iff] at hc
    obtain ⟨i, z, hz, hzf⟩ := h.owned c hc
    refine ⟨i, z, ?_, hzf⟩
    have hi : i ≠ idx := by
      rintro rfl
      obtain rfl := Option.some.inj (hx.symm.trans hz)
      obtain ⟨file, hfine⟩ := h.fine i x hx
      have hlen := hfine.flights
      rw [mem_flushes_iff, ← hzf] at hc
      have hpos := List.length_pos_of_mem hc
      rw [List.length_append] at hpos
      omega
    rw [hat i, if_neg hi, hz]
  · rw [hdelivered]
    exact h.delivered

/-! ### The table -/

theorem recvAt_setXfer (hx : s.recvAt idx = some x) (y : Xfer) (k : ℕ) :
    (s.setXfer idx y).recvAt k = if k = idx then some y else s.recvAt k := by
  unfold State.recvAt State.setXfer at *
  dsimp only
  rw [List.getElem?_modify]
  by_cases hk : k = idx
  · obtain rfl := hk
    rw [if_pos rfl]
    cases hd : s.dcc[k]? with
    | none =>
      rw [hd] at hx
      cases hx
    | some d => simp [Dcc.recv?]
  · rw [if_neg hk]
    cases s.dcc[k]? with
    | none => rfl
    | some d => simp [Ne.symm hk]

theorem recvAt_setLost (s : State) (idx k : ℕ) :
    (s.setLost idx).recvAt k = if k = idx then none else s.recvAt k := by
  unfold State.recvAt State.setLost
  dsimp only
  rw [List.getElem?_modify]
  by_cases hk : k = idx
  · obtain rfl := hk
    rw [if_pos rfl]
    cases s.dcc[k]? with
    | none => rfl
    | some d => simp [Dcc.recv?]
  · rw [if_neg hk]
    cases s.dcc[k]? with
    | none => rfl
    | some d => simp [Ne.symm hk]

theorem setXfer_setXfer (s : State) (idx : ℕ) (x y : Xfer) :
    (s.setXfer idx x).setXfer idx y = s.setXfer idx y := by
  unfold State.setXfer
  dsimp only
  congr 1
  refine List.ext_getElem? fun k => ?_
  rw [List.getElem?_modify, List.getElem?_modify, List.getElem?_modify]
  cases s.dcc[k]? with
  | none => rfl
  | some d =>
    by_cases hk : idx = k
    · simp [hk]
    · simp [hk]

/-! ### Files -/

theorem openFile_eq {file : File} (hfile : s.files[f]? = some file) (hopen : file.isOpen = true) :
    s.openFile f = .ok file := by
  unfold State.openFile
  rw [hfile]
  exact if_pos hopen

theorem fwrite_eq {file : File} (hfile : s.files[f]? = some file) (hopen : file.isOpen = true)
    (data : List UInt8) : s.fwrite f data =
      .ok { s with files := s.files.set f { file with content := file.content ++ data } } := by
  unfold State.fwrite
  rw [openFile_eq hfile hopen]
  rfl

theorem fclose_eq {file : File} (hfile : s.files[f]? = some file) (hopen : file.isOpen = true) :
    s.fclose f = .ok { s with files := s.files.set f { file with isOpen := false } } := by
  unfold State.fclose
  rw [openFile_eq hfile hopen]
  rfl

theorem view_setFile_of_ne (s : State) (file : File) {g : ℕ} (hg : g ≠ f) :
    State.view { s with files := s.files.set f file } g = s.view g := by
  unfold State.view
  dsimp only
  rw [List.getElem?_set_ne (Ne.symm hg)]

theorem view_setFile {old : File} (hfile : s.files[f]? = some old) (file : File) :
    State.view { s with files := s.files.set f file } f = { s.view f with file := some file } := by
  unfold State.view
  dsimp only
  rw [List.getElem?_set_self (List.getElem?_eq_some_iff.1 hfile).1]

/-! ### Receiving -/

theorem view_submit_of_ne (s : State) {c : Flush} (hf : f ≠ c.f) :
    State.view { s with submitted := s.submitted ++ [c] } f = s.view f := by
  unfold State.view
  dsimp only
  rw [List.filter_append, List.filter_cons_of_neg (by simpa using Ne.symm hf), List.filter_nil,
    List.append_nil]

theorem view_submit (s : State) (c : Flush) :
    State.view { s with submitted := s.submitted ++ [c] } c.f =
      { s.view c.f with sub := (s.view c.f).sub ++ [c] } := by
  unfold State.view
  dsimp only
  rw [List.filter_append, List.filter_cons_of_pos (by simp), List.filter_nil]

theorem sub_of_written (h : s.Written f) : (s.view f).sub = [] := by
  refine List.filter_eq_nil_iff.2 fun c hc => ?_
  simpa using h c hc

theorem Inv.flushed (h : Inv s) (hx : s.recvAt idx = some x) {file : File}
    (hfine : Fine idx x (s.view x.f) file) (hsub : (s.view x.f).sub = []) (hopen : x.closed = false)
    {c : Flush} (hidx : c.dccIdx = idx) (hcf : c.f = x.f) (hyf : y.f = x.f) (hwbuf : y.wbuf = [])
    (hflights : y.inFlight = x.inFlight + 1) (hreceived : y.received = file.content ++ c.data)
    (hclosed : c.closeAfter = true → y.closed = true) :
    Inv { s.setXfer idx y with submitted := s.submitted ++ [c] } := by
  have hview : State.view { s.setXfer idx y with submitted := s.submitted ++ [c] } x.f =
      { s.view x.f with sub := [c] } := by
    have hadd := view_submit (s.setXfer idx y) c
    rw [hcf] at hadd
    refine hadd.trans ?_
    rw [show (s.setXfer idx y).view x.f = s.view x.f from rfl, hsub]
    rfl
  refine h.put (y := y) hx hyf (recvAt_setXfer hx _)
    (fun f hf => view_submit_of_ne (s.setXfer idx _) (hcf.symm ▸ hf)) ⟨file, ?_⟩ h.delivered
  rw [hview]
  have hfileOpen := hfine.isOpen (.inl hopen)
  have hcount := hfine.flights
  rw [hsub, List.length_nil] at hcount
  refine ⟨hfine.stored, ?_, fun _ => hfileOpen, ?_, Nat.le_refl 1, fun _ => hwbuf, fun d hd => ?_,
    fun d hd => ?_, ?_⟩
  · rw [hreceived, hwbuf, List.append_nil, List.flatMap_singleton]
  · rw [hflights, hcount]
    dsimp only
    rw [List.length_singleton]
    omega
  · rcases List.mem_append.1 hd with hd | hd
    · rw [List.mem_singleton.1 hd]
      exact hidx
    · exact hfine.here d (List.mem_append_right _ hd)
  · rw [List.mem_singleton.1 hd]
    exact hclosed
  · rw [hwbuf]
    decide

theorem Inv.gathered (h : Inv s) (hx : s.recvAt idx = some x) {file : File}
    (hfine : Fine idx x (s.view x.f) file) (hyf : y.f = x.f) (hclosed : y.closed = x.closed)
    (hflights : y.inFlight = x.inFlight) (hempty : y.inFlight ≠ 0 → y.wbuf = [])
    (hshort : y.wbuf.length < xferWbufSize / 2)
    (hreceived : y.received = file.content ++ (s.view x.f).sub.flatMap Flush.data ++ y.wbuf) :
    Inv (s.setXfer idx y) := by
  refine h.put (y := y) hx hyf (recvAt_setXfer hx _) (fun _ _ => rfl) ⟨file, ?_⟩ h.delivered
  have hview : (s.setXfer idx y).view x.f = s.view x.f := rfl
  rw [hview]
  refine ⟨hfine.stored, hreceived, ?_, hflights.trans hfine.flights, hfine.one, hempty, hfine.here,
    ?_, hshort⟩
  · rw [hclosed]
    exact hfine.isOpen
  · rw [hclosed]
    exact hfine.closing

theorem Inv.written (h : Inv s) (hx : s.recvAt idx = some x) {file : File}
    (hfine : Fine idx x (s.view x.f) file) (hsub : (s.view x.f).sub = []) (hwbuf : x.wbuf = [])
    (hopen : file.isOpen = true) (buf : List UInt8) (status : ℕ) :
    Inv (State.setXfer { s with
        files := s.files.set x.f { file with content := file.content ++ buf } } idx
      { x with status := status, received := x.received ++ buf }) := by
  have hstored : s.files[x.f]? = some file := hfine.stored
  refine h.put (y := { x with status := status, received := x.received ++ buf }) hx rfl
    (recvAt_setXfer (s := { s with files := _ }) hx _)
    (fun f hf => view_setFile_of_ne s _ hf) ⟨{ file with content := file.content ++ buf }, ?_⟩
    h.delivered
  have hview := view_setFile hstored { file with content := file.content ++ buf }
  rw [show State.view (State.setXfer { s with
    files := s.files.set x.f { file with content := file.content ++ buf } } idx
    { x with status := status, received := x.received ++ buf }) x.f = _ from hview]
  refine ⟨rfl, ?_, fun _ => hopen, hfine.flights, hfine.one, fun _ => hwbuf, hfine.here,
    hfine.closing, hfine.short⟩
  have hrec := hfine.received
  rw [hsub, hwbuf, List.flatMap_nil, List.append_nil, List.append_nil] at hrec
  dsimp only
  rw [hsub, hwbuf, hrec, List.flatMap_nil, List.append_nil, List.append_nil]

theorem xferWbufFlush_eq (s : State) (idx : ℕ) {x : Xfer} {closeAfter : Bool}
    (h : x.wbuf ≠ [] ∨ closeAfter = true) : s.xferWbufFlush idx x closeAfter =
      { s.setXfer idx { x with wbuf := [], inFlight := x.inFlight + 1 } with
        submitted := s.submitted ++ [⟨idx, x.f, x.wbuf, closeAfter⟩] } := by
  unfold State.xferWbufFlush
  rw [if_neg]
  rintro ⟨hnil, hfalse⟩
  rcases h with h | h
  · exact h hnil
  · rw [hfalse] at h
    cases h

theorem refuseLonger_eq (hx : s.recvAt idx = some x) (hlong : x.length < x.status ∧ 0 < x.length) :
    s.refuseLonger idx x =
      { s.setXfer idx { x with wbuf := [], inFlight := x.inFlight + 1, closed := true } with
        submitted := s.submitted ++ [⟨idx, x.f, x.wbuf, true⟩] } := by
  have hat := recvAt_setXfer hx { x with wbuf := [], inFlight := x.inFlight + 1 } idx
  rw [if_pos rfl] at hat
  unfold State.refuseLonger
  rw [if_pos hlong, xferWbufFlush_eq _ idx (.inr rfl)]
  dsimp only
  rw [show State.recvAt { s.setXfer idx { x with wbuf := [], inFlight := x.inFlight + 1 } with
    submitted := s.submitted ++ [⟨idx, x.f, x.wbuf, true⟩] } idx = _ from hat]
  exact congrArg
    (fun t : State => { t with submitted := s.submitted ++ [(⟨idx, x.f, x.wbuf, true⟩ : Flush)] })
    (setXfer_setXfer s idx _ _)

/-- The end of `dcc_send` keeps the invariant. -/
theorem Inv.refuseLonger (h : Inv s) (hx : s.recvAt idx = some x) (hopen : x.closed = false)
    (hsub : (s.view x.f).sub = []) : Inv (s.refuseLonger idx x) := by
  by_cases hlong : x.length < x.status ∧ 0 < x.length
  · obtain ⟨file, hfine⟩ := h.fine idx x hx
    have hreceived := hfine.received
    rw [hsub, List.flatMap_nil, List.append_nil] at hreceived
    rw [refuseLonger_eq hx hlong]
    exact h.flushed hx hfine hsub hopen rfl rfl rfl rfl rfl hreceived fun _ => rfl
  · rw [State.refuseLonger, if_neg hlong]
    exact h

theorem Inv.dccSend (h : Inv s) (hx : s.recvAt idx = some x) (hopen : x.closed = false)
    (hwritten : s.Written x.f) (hlen : buf.length ≤ readMax)
    (hlong : x.length < x.status + buf.length → 0 < x.length → x.inFlight = 0 →
      x.wbuf.length + buf.length < xferWbufSize / 2) : Gives (s.dccSend idx x buf) Inv := by
  obtain ⟨file, hfine⟩ := h.fine idx x hx
  have hsub := sub_of_written hwritten
  have hfileOpen := hfine.isOpen (.inl hopen)
  have hshort := hfine.short
  have hreceived := hfine.received
  rw [hsub, List.flatMap_nil, List.append_nil] at hreceived
  have hsize : xferWbufSize / 2 + readMax ≤ xferWbufSize := by decide
  have hself (t : State) (ht : t.recvAt idx = some x) (y : Xfer) :
      (t.setXfer idx y).recvAt idx = some y := (recvAt_setXfer ht y idx).trans (if_pos rfl)
  unfold State.dccSend State.gather
  by_cases hflight : x.inFlight = 0
  · -- the buffer takes it
    rw [if_pos ⟨by omega, hflight⟩]
    refine Gives.bind (Gives.ok rfl) ?_
    rintro _ rfl
    dsimp only
    have hwbuf : (x.wbuf ++ buf).length = x.wbuf.length + buf.length := List.length_append
    have hrec : x.received ++ buf = file.content ++ (x.wbuf ++ buf) := by
      rw [hreceived, List.append_assoc]
    generalize hy : ({ x with
      wbuf := x.wbuf ++ buf, status := x.status + buf.length, received := x.received ++ buf } : Xfer) = y
    have hyf : y.f = x.f := by rw [← hy]
    have hyopen : y.closed = false := by rw [← hy]; exact hopen
    have hyflight : y.inFlight = x.inFlight := by rw [← hy]
    have hywbuf : y.wbuf = x.wbuf ++ buf := by rw [← hy]
    have hyrec : y.received = file.content ++ y.wbuf := by rw [← hy]; exact hrec
    unfold State.flushHalf
    by_cases hhalf : xferWbufSize / 2 ≤ y.wbuf.length
    · -- it is handed on
      have hne : y.wbuf ≠ [] := by
        intro hnil
        rw [hnil] at hhalf
        exact absurd hhalf (by decide)
      have hnot : ¬ (y.length < y.status ∧ 0 < y.length) := by
        rintro ⟨hlt, hpos⟩
        rw [← hy] at hlt hpos
        have := hlong hlt hpos hflight
        rw [hywbuf] at hhalf
        omega
      rw [if_pos ⟨hhalf, hyflight.trans hflight⟩, xferWbufFlush_eq _ idx (.inl hne), setXfer_setXfer]
      have hat := hself s hx { y with wbuf := [], inFlight := y.inFlight + 1 }
      rw [show State.recvAt { s.setXfer idx { y with wbuf := [], inFlight := y.inFlight + 1 } with
        submitted := (s.setXfer idx y).submitted ++ [⟨idx, y.f, y.wbuf, false⟩] } idx = _ from hat]
      dsimp only
      rw [State.refuseLonger, if_neg hnot]
      exact Gives.ok (h.flushed hx hfine hsub hopen rfl hyf hyf rfl
        (congrArg (· + 1) hyflight) hyrec fun h => absurd h Bool.false_ne_true)
    · rw [if_neg fun h => hhalf h.1, hself s hx y]
      have hkeep : Inv (s.setXfer idx y) := by
        refine h.gathered hx hfine hyf (hyopen.trans hopen.symm) hyflight (fun hne => ?_)
          (Nat.not_le.1 hhalf) ?_
        · exact absurd (hyflight.trans hflight) hne
        · rw [hyrec, hsub, List.flatMap_nil, List.append_nil]
      refine Gives.ok (hkeep.refuseLonger (hself s hx y) hyopen ?_)
      rw [hyf]
      exact hsub
  · -- it goes to the file, behind what is written already
    rw [if_neg fun h => hflight h.2, fwrite_eq hfine.stored hfileOpen]
    refine Gives.bind (P := fun p => p = ({ s with
      files := s.files.set x.f { file with content := file.content ++ buf } }, x)) ⟨_, rfl, rfl⟩ ?_
    rintro _ rfl
    dsimp only
    have hkeep := h.written hx hfine hsub (hfine.empty hflight) hfileOpen buf (x.status + buf.length)
    have hat := hself { s with
      files := s.files.set x.f { file with content := file.content ++ buf } } hx
      { x with status := x.status + buf.length, received := x.received ++ buf }
    rw [State.flushHalf, if_neg fun h => hflight h.2, hat]
    exact Gives.ok (hkeep.refuseLonger hat hopen hsub)

/-! ### Threads -/

theorem filter_eraseIdx {i : ℕ} {c : Flush} (hc : s.submitted[i]? = some c)
    (hone : (s.view c.f).sub.length ≤ 1) :
    (s.view c.f).sub = [c] ∧ (s.submitted.eraseIdx i).filter (·.f = c.f) = [] ∧
      ∀ f, f ≠ c.f → (s.submitted.eraseIdx i).filter (·.f = f) = s.submitted.filter (·.f = f) := by
  obtain ⟨hi, rfl⟩ := List.getElem?_eq_some_iff.1 hc
  have hsplit : s.submitted = s.submitted.take i ++ s.submitted[i] :: s.submitted.drop (i + 1) := by
    rw [List.getElem_cons_drop hi, List.take_append_drop]
  have herase : s.submitted.eraseIdx i = s.submitted.take i ++ s.submitted.drop (i + 1) :=
    List.eraseIdx_eq_take_drop_succ ..
  unfold State.view at hone ⊢
  dsimp only at hone ⊢
  rw [herase]
  generalize s.submitted[i] = c at hsplit hone ⊢
  generalize s.submitted.take i = pre at hsplit ⊢
  generalize s.submitted.drop (i + 1) = post at hsplit ⊢
  rw [hsplit, List.filter_append, List.filter_cons_of_pos (by simp)] at hone ⊢
  rw [List.length_append, List.length_cons] at hone
  have hpre : pre.filter (·.f = c.f) = [] := List.length_eq_zero_iff.1 (by omega)
  have hpost : post.filter (·.f = c.f) = [] := List.length_eq_zero_iff.1 (by omega)
  refine ⟨by rw [hpre, hpost, List.nil_append], by rw [List.filter_append, hpre, hpost]; rfl,
    fun f hf => ?_⟩
  rw [List.filter_append, List.filter_append, List.filter_cons_of_neg (by simpa using Ne.symm hf)]

theorem Inv.taken (h : Inv s) {i : ℕ} {c : Flush} (hc : s.submitted[i]? = some c)
    (hx : s.recvAt idx = some x) (hxf : x.f = c.f) {file file' : File}
    (hfine : Fine idx x (s.view c.f) file) (hcontent : file'.content = file.content ++ c.data)
    (hopen : c.closeAfter = false → file'.isOpen = true) {files : List File}
    (hfile : files[c.f]? = some file') (hfiles : ∀ f, f ≠ c.f → files[f]? = s.files[f]?) :
    Inv { s with
      submitted := s.submitted.eraseIdx i, posted := s.posted ++ [c], files := files } := by
  obtain ⟨hsub, hnone, hothers⟩ := filter_eraseIdx hc hfine.one
  have hview : State.view { s with
      submitted := s.submitted.eraseIdx i, posted := s.posted ++ [c], files := files } c.f =
      ⟨[], (s.view c.f).posted ++ [c], some file'⟩ := by
    unfold State.view
    dsimp only
    rw [hnone, hfile, List.filter_append, List.filter_cons_of_pos (by simp), List.filter_nil]
  refine h.put (y := x) hx rfl (fun k => ?_) (fun f hf => ?_) ⟨file', ?_⟩ h.delivered
  · split
    · next hk =>
      rw [hk]
      exact hx
    · rfl
  · rw [hxf] at hf
    unfold State.view
    dsimp only
    rw [hothers f hf, hfiles f hf, List.filter_append,
      List.filter_cons_of_neg (by simpa using Ne.symm hf), List.filter_nil, List.append_nil]
  · rw [hxf, hview]
    have hrec := hfine.received
    have hcount := hfine.flights
    have hhere := hfine.here
    have hclosing := hfine.closing
    rw [hsub] at hrec hcount hhere hclosing
    refine ⟨rfl, ?_, ?_, ?_, Nat.zero_le 1, hfine.empty, fun d hd => hhere d ?_, fun d hd => ?_,
      hfine.short⟩
    · rw [hrec, hcontent, List.flatMap_singleton, List.flatMap_nil, List.append_nil]
    · rintro (hclosed | hne)
      · refine hopen (Bool.eq_false_iff.2 fun hafter => ?_)
        rw [hclosing c List.mem_cons_self hafter] at hclosed
        cases hclosed
      · exact absurd rfl hne
    · rw [hcount]
      dsimp only
      rw [List.length_append, List.length_singleton, List.length_nil]
      omega
    · rw [List.nil_append] at hd
      rcases List.mem_append.1 hd with hd | hd
      · exact List.mem_append_right _ hd
      · exact List.mem_append_left _ hd
    · exact absurd hd List.not_mem_nil

theorem Inv.xferFlushWorker (h : Inv s) (i : ℕ) : Gives (s.xferFlushWorker i) Inv := by
  unfold State.xferFlushWorker
  cases hc : s.submitted[i]? with
  | none => exact Gives.ok h
  | some c =>
    obtain ⟨idx, x, hx, hxf⟩ := h.owned c (List.mem_append_left _ (List.mem_of_getElem? hc))
    obtain ⟨file, hfine⟩ := h.fine idx x hx
    rw [hxf] at hfine
    have hsub := (filter_eraseIdx hc hfine.one).1
    have hopen : file.isOpen = true := hfine.isOpen (.inr (by rw [hsub]; exact List.cons_ne_nil _ _))
    have hstored : s.files[c.f]? = some file := hfine.stored
    have hlt := (List.getElem?_eq_some_iff.1 hstored).1
    -- the file is closed, if it is to be
    have hend (files : List File) (file' : File) (hcontent : file'.content = file.content ++ c.data)
        (hopen' : file'.isOpen = true) (hfile : files[c.f]? = some file')
        (hfiles : ∀ f, f ≠ c.f → files[f]? = s.files[f]?) :
        Gives (if c.closeAfter = true then State.fclose { s with
            submitted := s.submitted.eraseIdx i, posted := s.posted ++ [c], files := files } c.f
          else .ok { s with
            submitted := s.submitted.eraseIdx i, posted := s.posted ++ [c], files := files }) Inv := by
      refine Gives.ite (fun hafter => ?_) fun hafter => ?_
      · have hshut : ({ file' with isOpen := false } : File).content = file.content ++ c.data := hcontent
        rw [fclose_eq hfile hopen']
        refine Gives.ok (h.taken hc hx hxf hfine hshut (fun hno => ?_)
          (List.getElem?_set_self (List.getElem?_eq_some_iff.1 hfile).1) fun f hf => ?_)
        · rw [hno] at hafter
          cases hafter
        · rw [List.getElem?_set_ne (Ne.symm hf), hfiles f hf]
      · exact Gives.ok (h.taken hc hx hxf hfine hcontent (fun _ => hopen') hfile hfiles)
    refine Gives.ite (fun hnil => hend s.files file ?_ hopen hstored fun _ _ => rfl) fun _ => ?_
    · rw [hnil, List.append_nil]
    · rw [fwrite_eq (s := { s with submitted := s.submitted.eraseIdx i, posted := s.posted ++ [c] })
        hstored hopen]
      exact hend _ { file with content := file.content ++ c.data } rfl hopen
        (List.getElem?_set_self hlt) fun f hf => List.getElem?_set_ne (Ne.symm hf)

theorem Inv.credited (h : Inv s) {c : Flush} {posted : List Flush} (hp : s.posted = c :: posted)
    (hx : s.recvAt idx = some x) (hxf : x.f = c.f) :
    Inv (State.setXfer { s with posted := posted } idx { x with inFlight := x.inFlight - 1 }) := by
  obtain ⟨file, hfine⟩ := h.fine idx x hx
  have hsee : (s.view x.f).posted = c :: posted.filter (·.f = x.f) := by
    unfold State.view
    dsimp only
    rw [hp, List.filter_cons_of_pos (by simpa using hxf.symm)]
  refine h.put (y := { x with inFlight := x.inFlight - 1 }) hx rfl
    (recvAt_setXfer (s := { s with posted := posted }) hx _) (fun f hf => ?_) ⟨file, ?_⟩ h.delivered
  · have hcf : ¬ c.f = f := fun heq => hf (heq.symm.trans hxf.symm)
    show State.view { s with posted := posted } f = _
    unfold State.view
    dsimp only
    rw [hp, List.filter_cons_of_neg (by simpa using hcf)]
  · show Fine _ _ ⟨(s.view x.f).sub, posted.filter (·.f = x.f), (s.view x.f).file⟩ file
    have hcount := hfine.flights
    have hhere := hfine.here
    rw [hsee] at hcount hhere
    refine ⟨hfine.stored, hfine.received, hfine.isOpen, ?_, hfine.one, fun hne => ?_, fun d hd => ?_,
      hfine.closing, hfine.short⟩
    · dsimp only
      rw [hcount, List.length_cons]
      omega
    · refine hfine.empty ?_
      rw [hfine.flights, hsee, List.length_cons]
      omega
    · refine hhere d ?_
      rcases List.mem_append.1 hd with hd | hd
      · exact List.mem_append_left _ hd
      · exact List.mem_append_right _ (List.mem_cons_of_mem c hd)

theorem recvAt_dccRequestClose (s : State) (idx k : ℕ) :
    (s.dccRequestClose idx).recvAt k = s.recvAt k := by
  unfold State.recvAt State.dccRequestClose
  dsimp only
  rw [List.getElem?_modify]
  cases s.dcc[k]? with
  | none => rfl
  | some d =>
    by_cases hk : idx = k
    · simp [hk, Dcc.recv?]
    · simp [hk]

theorem Inv.same (h : Inv s) (hat : ∀ k, s'.recvAt k = s.recvAt k) (hview : ∀ f, s'.view f = s.view f)
    (hdelivered : s'.delivered = s.delivered) : Inv s' := by
  refine ⟨fun k z hz => ?_, fun i j u v hu hv => ?_, fun c hc => ?_, ?_⟩
  · rw [hat] at hz
    rw [hview]
    exact h.fine k z hz
  · rw [hat] at hu hv
    exact h.apart i j u v hu hv
  · rw [mem_flushes_iff, hview, ← mem_flushes_iff] at hc
    obtain ⟨i, z, hz, hzf⟩ := h.owned c hc
    exact ⟨i, z, (hat i).trans hz, hzf⟩
  · rw [hdelivered]
    exact h.delivered

theorem Inv.xferFlushDone (h : Inv s) : Gives s.xferFlushDone Inv := by
  unfold State.xferFlushDone
  cases hp : s.posted with
  | nil => exact Gives.ok h
  | cons c posted =>
    have hmem : c ∈ s.flushes := List.mem_append_right _ (by rw [hp]; exact List.mem_cons_self)
    obtain ⟨idx, x, hx, hxf⟩ := h.owned c hmem
    obtain ⟨file, hfine⟩ := h.fine idx x hx
    rw [hxf] at hfine
    have hidx : c.dccIdx = idx := hfine.here c (by rw [← mem_flushes_iff]; exact hmem)
    have hcredit : State.credit { s with posted := posted } c.dccIdx =
        .ok (State.setXfer { s with posted := posted } idx { x with inFlight := x.inFlight - 1 }) := by
      unfold State.recvAt at hx
      obtain ⟨d, hd, hrecv⟩ := Option.bind_eq_some_iff.1 hx
      unfold State.credit
      rw [hidx]
      dsimp only
      rw [hd]
      unfold Dcc.recv? at hrecv
      dsimp only
      split at hrecv
      · next y hy =>
        obtain rfl := Option.some.inj hrecv
        rw [hy]
      · cases hrecv
    have hinv := h.credited hp hx hxf
    dsimp only
    rw [hcredit]
    refine Gives.ok ?_
    split
    · exact hinv.same (recvAt_dccRequestClose _ _) (fun _ => rfl) rfl
    · exact hinv

/-! ### Closing -/

theorem Inv.lostdcc (h : Inv s) (idx : ℕ) : Inv (s.lostdcc idx) := by
  unfold State.lostdcc
  cases hx : s.recvAt idx with
  | none =>
    refine h.same (fun k => ?_) (fun _ => rfl) rfl
    rw [recvAt_setLost]
    split
    · next hk => rw [hk, hx]
    · rfl
  | some x =>
    dsimp only
    split
    · exact h.same (fun _ => rfl) (fun _ => rfl) rfl
    · next hflights =>
      exact h.drop hx (by omega) (recvAt_setLost s idx) (fun _ => rfl) rfl

theorem Inv.killDccXfer (h : Inv s) : Inv s.killDccXfer := by
  unfold State.killDccXfer
  split
  · exact h
  · exact Inv.lostdcc (s := { s with killing := none }) (h.same (fun _ => rfl) (fun _ => rfl) rfl) _

theorem Inv.shut (h : Inv s) (hx : s.recvAt idx = some x) (hopen : x.closed = false)
    (hwritten : s.Written x.f) :
    Gives ((s.setXfer idx { x with closed := true }).fclose x.f) Inv := by
  obtain ⟨file, hfine⟩ := h.fine idx x hx
  have hsub := sub_of_written hwritten
  rw [fclose_eq (s := s.setXfer idx { x with closed := true }) hfine.stored (hfine.isOpen (.inl hopen))]
  refine Gives.ok (h.put (y := { x with closed := true }) hx rfl (recvAt_setXfer hx _)
    (fun f hf => view_setFile_of_ne (s.setXfer idx _) _ hf) ⟨{ file with isOpen := false }, ?_⟩
    h.delivered)
  have hview := view_setFile (s := s.setXfer idx { x with closed := true }) hfine.stored
    { file with isOpen := false }
  rw [hview]
  refine ⟨rfl, hfine.received, ?_, hfine.flights, hfine.one, hfine.empty, hfine.here, fun _ _ _ => rfl,
    hfine.short⟩
  rintro (hclosed | hne)
  · cases hclosed
  · exact absurd hsub hne

theorem Inv.eofDccSend (h : Inv s) (hx : s.recvAt idx = some x) (hopen : x.closed = false)
    (hwritten : s.Written x.f) {copied : Bool}
    (hempty : x.length = x.status → copied = true → x.wbuf = []) :
    Gives (s.eofDccSend idx x copied) Inv := by
  obtain ⟨file, hfine⟩ := h.fine idx x hx
  have hsub := sub_of_written hwritten
  unfold State.eofDccSend
  rw [openFile_eq hfine.stored (hfine.isOpen (.inl hopen))]
  refine Gives.bind (Gives.ok rfl) ?_
  rintro _ rfl
  dsimp only
  by_cases hall : x.length = x.status ∧ copied = true
  · -- what is copied is all there is
    have hrec := hfine.received
    rw [hsub, hempty hall.1 hall.2, List.flatMap_nil, List.append_nil, List.append_nil] at hrec
    rw [if_pos hall]
    have hinv : Inv { s with delivered := s.delivered ++ [⟨file.content, x.received⟩] } := by
      refine ⟨h.fine, h.apart, h.owned, fun d hd => ?_⟩
      rcases List.mem_append.1 hd with hd | hd
      · exact h.delivered d hd
      · rw [List.mem_singleton.1 hd]
        exact hrec.symm
    exact (hinv.shut hx hopen hwritten).bind fun t ht => Gives.ok (ht.lostdcc idx)
  · rw [if_neg hall]
    exact (h.shut hx hopen hwritten).bind fun t ht => Gives.ok (ht.lostdcc idx)

theorem Inv.timeout (h : Inv s) (hx : s.recvAt idx = some x) (hopen : x.closed = false)
    (hwritten : s.Written x.f) : Gives (s.timeout idx x) Inv :=
  (h.shut hx hopen hwritten).bind fun _ ht => Gives.ok (ht.lostdcc idx)

/-! ### Entries move -/

theorem recvAt_eq_iff : s.recvAt k = some x ↔ ∃ d, s.dcc[k]? = some d ∧ d.recv? = some x :=
  Option.bind_eq_some_iff

theorem not_lost_of_recv {d : Dcc} (h : d.recv? = some x) : d.isLost = false := by
  unfold Dcc.recv? at h
  unfold Dcc.isLost
  split at h
  · next y hy =>
    rw [hy]
    rfl
  · cases h

/-- Two entries are not transfers of one file. -/
def Apart (d e : Dcc) : Prop := ∀ x y, d.recv? = some x → e.recv? = some y → x.f ≠ y.f

theorem pairwise_apart_iff : s.dcc.Pairwise Apart ↔
    ∀ i j x y, s.recvAt i = some x → s.recvAt j = some y → x.f = y.f → i = j := by
  rw [List.pairwise_iff_getElem]
  refine ⟨fun h i j x y hx hy heq => ?_, fun h i j hi hj hij x y hx hy heq => ?_⟩
  · obtain ⟨d, hd, hrecv⟩ := recvAt_eq_iff.1 hx
    obtain ⟨e, he, hrecv'⟩ := recvAt_eq_iff.1 hy
    obtain ⟨hi, rfl⟩ := List.getElem?_eq_some_iff.1 hd
    obtain ⟨hj, rfl⟩ := List.getElem?_eq_some_iff.1 he
    rcases Nat.lt_trichotomy i j with hij | hij | hij
    · exact absurd heq (h i j hi hj hij x y hrecv hrecv')
    · exact hij
    · exact absurd heq.symm (h j i hj hi hij y x hrecv' hrecv)
  · have hsame := h i j x y (recvAt_eq_iff.2 ⟨_, List.getElem?_eq_getElem hi, hx⟩)
      (recvAt_eq_iff.2 ⟨_, List.getElem?_eq_getElem hj, hy⟩) heq
    omega

theorem Inv.recvAt_dccIdx (h : Inv s) {c : Flush} (hc : c ∈ s.flushes) :
    ∃ x, s.recvAt c.dccIdx = some x ∧ x.f = c.f := by
  obtain ⟨i, x, hx, hxf⟩ := h.owned c hc
  obtain ⟨file, hfine⟩ := h.fine i x hx
  rw [hxf] at hfine
  have hidx : c.dccIdx = i := hfine.here c (by rw [← mem_flushes_iff]; exact hc)
  exact ⟨x, by rw [hidx, hx], hxf⟩

theorem Inv.dccRemoveLost (h : Inv s)
    (hstay : ∀ c ∈ s.flushes, c.dccIdx < (s.dcc.filter fun d => !d.isLost).length) :
    Inv s.dccRemoveLost := by
  -- every transfer that is left was there
  have hfrom : ∀ k x, s.dccRemoveLost.recvAt k = some x → ∃ j, s.recvAt j = some x := by
    intro k x hx
    obtain ⟨d, hd, hrecv⟩ := recvAt_eq_iff.1 hx
    have hmem := (compact_perm Dcc.isLost s.dcc).mem_iff.1 (List.mem_of_getElem? hd)
    obtain ⟨j, hj⟩ := List.mem_iff_getElem?.1 (List.mem_of_mem_filter hmem)
    exact ⟨j, recvAt_eq_iff.2 ⟨d, hj, hrecv⟩⟩
  have hkeep : ∀ c ∈ s.flushes, ∀ x, s.recvAt c.dccIdx = some x →
      s.dccRemoveLost.recvAt c.dccIdx = some x := by
    intro c hc x hx
    obtain ⟨d, hd, hrecv⟩ := recvAt_eq_iff.1 hx
    exact recvAt_eq_iff.2 ⟨d, getElem?_compact (hstay c hc) hd (not_lost_of_recv hrecv), hrecv⟩
  have hapart : ∀ i j x y, s.dccRemoveLost.recvAt i = some x → s.dccRemoveLost.recvAt j = some y →
      x.f = y.f → i = j :=
    pairwise_apart_iff.1 (pairwise_compact (fun hde x y hx hy heq => hde y x hy hx heq.symm)
      (pairwise_apart_iff.2 h.apart))
  refine ⟨fun k x hx => ?_, hapart, fun c hc => ?_, h.delivered⟩
  · obtain ⟨j, hj⟩ := hfrom k x hx
    obtain ⟨file, hfine⟩ := h.fine j x hj
    refine ⟨file, hfine.stored, hfine.received, hfine.isOpen, hfine.flights, hfine.one, hfine.empty,
      fun c hc => ?_, hfine.closing, hfine.short⟩
    have hidx : c.dccIdx = j := hfine.here c hc
    have hcf : c.f = x.f := by
      rcases List.mem_append.1 hc with hc | hc
      · simpa using (List.mem_filter.1 hc).2
      · simpa using (List.mem_filter.1 hc).2
    have hmem : c ∈ s.flushes := by
      rw [mem_flushes_iff, hcf]
      exact hc
    exact hapart _ _ x x (hkeep c hmem x (by rw [hidx, hj])) hx rfl
  · obtain ⟨x, hx, hxf⟩ := h.recvAt_dccIdx hc
    exact ⟨_, x, hkeep c hc x hx, hxf⟩

/-! ### Any step -/

theorem recvAt_append (s : State) (d : Dcc) (k : ℕ) :
    ((s.dcc ++ [d])[k]?).bind Dcc.recv? = if k = s.dcc.length then d.recv? else s.recvAt k := by
  unfold State.recvAt
  rcases Nat.lt_trichotomy k s.dcc.length with hk | rfl | hk
  · rw [List.getElem?_append_left hk, if_neg (by omega)]
  · rw [List.getElem?_concat_length, if_pos rfl]
    rfl
  · rw [List.getElem?_eq_none (by rw [List.length_append, List.length_singleton]; omega),
      if_neg (by omega), List.getElem?_eq_none (by omega)]

theorem recvAt_length (s : State) : s.recvAt s.dcc.length = none := by
  unfold State.recvAt
  rw [List.getElem?_eq_none (Nat.le_refl _)]
  rfl

theorem Inv.f_lt (h : Inv s) (hx : s.recvAt idx = some x) : x.f < s.files.length := by
  obtain ⟨file, hfine⟩ := h.fine idx x hx
  exact (List.getElem?_eq_some_iff.1 hfine.stored).1

theorem Inv.accept (h : Inv s) (length : ℕ) : Gives (s.main (.accept length)) Inv := by
  refine Gives.ok ?_
  generalize hs' : ({ s with
    dcc := s.dcc ++ [⟨.recv ⟨s.files.length, [], 0, length, 0, false, []⟩, false⟩]
    files := s.files ++ [⟨[], true⟩] } : State) = s'
  have hat (k : ℕ) : s'.recvAt k =
      if k = s.dcc.length then some ⟨s.files.length, [], 0, length, 0, false, []⟩ else s.recvAt k := by
    rw [← hs']
    exact recvAt_append s _ k
  have hold (f : ℕ) (hf : f < s.files.length) : s'.view f = s.view f := by
    rw [← hs']
    unfold State.view
    dsimp only
    rw [List.getElem?_append_left hf]
  have hlt : ∀ c ∈ s.flushes, c.f ≠ s.files.length := by
    intro c hc
    obtain ⟨i, x, hx, hxf⟩ := h.owned c hc
    have := h.f_lt hx
    omega
  have hnew : s'.view s.files.length = ⟨[], [], some ⟨[], true⟩⟩ := by
    rw [← hs']
    unfold State.view
    dsimp only
    rw [List.getElem?_concat_length, List.filter_eq_nil_iff.2 fun c hc => ?_,
      List.filter_eq_nil_iff.2 fun c hc => ?_]
    · simpa using hlt c (List.mem_append_right _ hc)
    · simpa using hlt c (List.mem_append_left _ hc)
  have hcases : ∀ {k x}, s'.recvAt k = some x →
      (k = s.dcc.length ∧ x = ⟨s.files.length, [], 0, length, 0, false, []⟩) ∨
        (s.recvAt k = some x ∧ x.f < s.files.length) := by
    intro k x hx
    rw [hat] at hx
    split at hx
    · next hk => exact .inl ⟨hk, (Option.some.inj hx).symm⟩
    · exact .inr ⟨hx, h.f_lt hx⟩
  refine ⟨fun k x hx => ?_, fun i j x y hx hy heq => ?_, fun c hc => ?_, ?_⟩
  · rcases hcases hx with ⟨rfl, rfl⟩ | ⟨hx, hlt⟩
    · refine ⟨⟨[], true⟩, ?_⟩
      rw [hnew]
      refine ⟨rfl, rfl, fun _ => rfl, rfl, Nat.zero_le 1, fun _ => rfl, ?_, ?_, ?_⟩
      · exact fun c hc => absurd hc List.not_mem_nil
      · exact fun c hc => absurd hc List.not_mem_nil
      · exact (by decide : 0 < xferWbufSize / 2)
    · rw [hold x.f hlt]
      exact h.fine k x hx
  · rcases hcases hx with ⟨rfl, rfl⟩ | ⟨hx, hxlt⟩
    · rcases hcases hy with ⟨rfl, rfl⟩ | ⟨hy, hylt⟩
      · rfl
      · dsimp only at heq
        omega
    · rcases hcases hy with ⟨rfl, rfl⟩ | ⟨hy, hylt⟩
      · dsimp only at heq
        omega
      · exact h.apart i j x y hx hy heq
  · have hmem : c ∈ s.flushes := by
      rw [← hs'] at hc
      exact hc
    obtain ⟨i, x, hx, hxf⟩ := h.owned c hmem
    refine ⟨i, x, ?_, hxf⟩
    rw [hat, if_neg, hx]
    rintro rfl
    rw [recvAt_length] at hx
    cases hx
  · rw [← hs']
    exact h.delivered

theorem Inv.connect (h : Inv s) (data : Bool) : Gives (s.main (.connect data)) Inv := by
  refine Gives.ok (h.same (fun k => ?_) (fun _ => rfl) rfl)
  refine (recvAt_append s _ k).trans ?_
  split
  · next hk =>
    rw [hk, recvAt_length]
    rfl
  · rfl

/-- A transfer whose socket is open. -/
theorem openAt_eq_some_iff : s.openAt idx = some x ↔ s.recvAt idx = some x ∧ x.closed = false := by
  unfold State.openAt
  rw [Option.filter_eq_some_iff]
  simp

theorem Inv.main (h : Inv s) {e : Event} (horder : Orderly s e) : Gives (s.main e) Inv := by
  cases e with
  | accept length => exact h.accept length
  | connect data => exact h.connect data
  | chunk idx buf =>
    unfold State.main
    dsimp only
    cases hx : s.openAt idx with
    | none => exact Gives.ok h
    | some x =>
      obtain ⟨hwritten, hlong⟩ := horder x hx
      obtain ⟨hx, hopen⟩ := openAt_eq_some_iff.1 hx
      exact h.dccSend hx hopen hwritten buf.2 hlong
  | eof idx copied =>
    unfold State.main
    dsimp only
    cases hx : s.openAt idx with
    | none => exact Gives.ok h
    | some x =>
      obtain ⟨hwritten, hempty⟩ := horder x hx
      obtain ⟨hx, hopen⟩ := openAt_eq_some_iff.1 hx
      exact h.eofDccSend hx hopen hwritten hempty
  | timeout idx =>
    unfold State.main
    dsimp only
    cases hx : s.openAt idx with
    | none => exact Gives.ok h
    | some x =>
      have hwritten := horder x hx
      obtain ⟨hx, hopen⟩ := openAt_eq_some_iff.1 hx
      exact h.timeout hx hopen hwritten
  | close idx =>
    unfold State.main
    dsimp only
    cases hx : s.recvAt idx with
    | none => exact Gives.ok (h.lostdcc idx)
    | some x =>
      obtain ⟨file, hfine⟩ := h.fine idx x hx
      refine Gives.ok (Inv.lostdcc ?_ idx)
      refine h.put (y := { x with closed := true }) hx rfl (recvAt_setXfer hx _) (fun _ _ => rfl)
        ⟨file, hfine.stored, hfine.received, ?_, hfine.flights, hfine.one, hfine.empty, hfine.here,
          fun _ _ _ => rfl, hfine.short⟩ h.delivered
      rintro (hclosed | hne)
      · cases hclosed
      · exact hfine.isOpen (.inr hne)
  | reap idx =>
    refine Gives.ok ?_
    split
    · exact h.lostdcc idx
    · exact h
  | removeLost => exact Gives.ok (h.dccRemoveLost horder)
  | worker i => exact Gives.ok h
  | done => exact Gives.ok h
  | killed => exact Gives.ok h

theorem Inv.next (h : Inv s) {e : Event} (horder : Orderly s e) : Gives (next s e) Inv := by
  unfold Receive.next
  split
  · exact h.xferFlushWorker _
  · exact h.xferFlushDone
  · exact Gives.ok h.killDccXfer
  · exact Gives.ite (fun _ => Gives.ok h) fun _ => h.main horder

theorem Inv.init : Inv init :=
  ⟨fun _ _ h => (nomatch h), fun _ _ _ _ h => (nomatch h), fun _ h => absurd h List.not_mem_nil,
    fun _ h => absurd h List.not_mem_nil⟩

theorem Inv.good (h : Inv s) : Good s := by
  refine ⟨h.delivered, fun c hc => h.recvAt_dccIdx hc, fun idx x hx => ?_⟩
  obtain ⟨file, hfine⟩ := h.fine idx x hx
  have hsame : s.flushes.filter (·.dccIdx = idx) = s.flushes.filter (·.f = x.f) := by
    refine List.filter_congr fun c hc => ?_
    obtain ⟨y, hy, hyf⟩ := h.recvAt_dccIdx hc
    rw [decide_eq_decide]
    refine ⟨fun hidx => ?_, fun hf => h.apart _ _ y x hy hx (hyf.trans hf)⟩
    rw [hidx] at hy
    obtain rfl := Option.some.inj (hx.symm.trans hy)
    exact hyf.symm
  rw [hsame, hfine.flights, State.flushes, List.filter_append, List.length_append]
  push_cast
  rfl

/-! ### What is in flight comes in -/

/-- How many steps the threads and the completions have to make. -/
def State.load (s : State) : ℕ := 2 * s.submitted.length + s.posted.length

theorem fwrite_queues (s : State) (f : ℕ) (data : List UInt8) :
    Ensures (s.fwrite f data) fun t => t.submitted = s.submitted ∧ t.posted = s.posted :=
  Ensures.bind' fun _ _ => Ensures.ok ⟨rfl, rfl⟩

theorem fclose_queues (s : State) (f : ℕ) :
    Ensures (s.fclose f) fun t => t.submitted = s.submitted ∧ t.posted = s.posted :=
  Ensures.bind' fun _ _ => Ensures.ok ⟨rfl, rfl⟩

theorem xferFlushWorker_load (s : State) (hne : s.submitted ≠ []) :
    Ensures (s.xferFlushWorker 0) fun t => t.load < s.load := by
  obtain ⟨c, rest, hs⟩ := List.exists_cons_of_ne_nil hne
  unfold State.xferFlushWorker
  rw [hs]
  dsimp only [List.getElem?_cons_zero, List.eraseIdx_zero, List.tail_cons]
  have hload (t : State) (ht : t.submitted = rest ∧ t.posted = s.posted ++ [c]) :
      t.load < s.load := by
    unfold State.load
    rw [ht.1, ht.2, hs, List.length_append, List.length_singleton, List.length_cons]
    omega
  have hend (t : State) (ht : t.submitted = rest ∧ t.posted = s.posted ++ [c]) :
      Ensures (if c.closeAfter = true then t.fclose c.f else .ok t) fun t => t.load < s.load := by
    refine Ensures.ite (fun _ => ?_) fun _ => Ensures.ok (hload t ht)
    refine (fclose_queues t c.f).mono fun u hu => hload u ⟨hu.1.trans ht.1, hu.2.trans ht.2⟩
  refine Ensures.ite (fun _ => hend _ ⟨rfl, rfl⟩) fun _ => ?_
  exact Ensures.bind (fwrite_queues _ c.f c.data) fun t ht => hend t ht

theorem credit_queues (s : State) (idx : ℕ) :
    Ensures (s.credit idx) fun t => t.submitted = s.submitted ∧ t.posted = s.posted := by
  unfold State.credit
  split
  · exact Ensures.ok ⟨rfl, rfl⟩
  · split
    · exact Ensures.ok ⟨rfl, rfl⟩
    · exact Ensures.error
    · exact Ensures.ok ⟨rfl, rfl⟩
    · exact Ensures.ok ⟨rfl, rfl⟩

theorem xferFlushDone_load (s : State) (hne : s.posted ≠ []) :
    Ensures s.xferFlushDone fun t => t.load < s.load := by
  obtain ⟨c, rest, hs⟩ := List.exists_cons_of_ne_nil hne
  unfold State.xferFlushDone
  rw [hs]
  dsimp only
  refine Ensures.bind (credit_queues _ c.dccIdx) fun t ht => Ensures.ok ?_
  have hload : t.load < s.load := by
    unfold State.load
    rw [ht.1, ht.2, hs, List.length_cons]
    exact Nat.lt_succ_self _
  split
  · exact hload
  · exact hload

theorem Inv.settles (h : Inv s) : ∃ es : List Event, (∀ e ∈ es, e.isBackground = true) ∧
    Gives (Machine.run Receive.next s es) fun t => Inv t ∧ t.flushes = [] := by
  induction hn : s.load using Nat.strongRecOn generalizing s with
  | ind n ih =>
    have hstep (e : Event) (he : e.isBackground = true) {t : State} (hs : Receive.next s e = .ok t)
        (ht : Inv t) (hlt : t.load < s.load) : ∃ es : List Event,
          (∀ e ∈ es, e.isBackground = true) ∧
            Gives (Machine.run Receive.next s es) fun t => Inv t ∧ t.flushes = [] := by
      obtain ⟨es, hes, hrun⟩ := ih t.load (by omega) ht rfl
      refine ⟨e :: es, fun d hd => ?_, ?_⟩
      · rcases List.mem_cons.1 hd with rfl | hd
        · exact he
        · exact hes d hd
      · rw [Machine.run_cons_ok hs]
        exact hrun
    by_cases hsub : s.submitted = []
    · by_cases hposted : s.posted = []
      · refine ⟨[], fun e he => absurd he List.not_mem_nil, Gives.ok ⟨h, ?_⟩⟩
        rw [State.flushes, hsub, hposted, List.append_nil]
      · obtain ⟨t, hs, ht⟩ := h.xferFlushDone
        exact hstep .done rfl hs ht (xferFlushDone_load s hposted t hs)
    · obtain ⟨t, hs, ht⟩ := h.xferFlushWorker 0
      exact hstep (.worker 0) rfl hs ht (xferFlushWorker_load s hsub t hs)

theorem Inv.inFlight_eq_zero (h : Inv s) (hnone : s.flushes = []) (hx : s.recvAt idx = some x) :
    x.inFlight = 0 := by
  have hcount := h.good.counted idx x hx
  rw [hnone] at hcount
  exact hcount

theorem killDccXfer_killing (hzero : ∀ idx x, s.recvAt idx = some x → x.inFlight = 0) :
    s.killDccXfer.killing = none := by
  unfold State.killDccXfer
  cases hk : s.killing with
  | none => exact hk
  | some idx =>
    dsimp only
    unfold State.lostdcc
    rw [show State.recvAt { s with killing := none } idx = s.recvAt idx from rfl]
    cases hx : s.recvAt idx with
    | none => rfl
    | some x =>
      dsimp only
      rw [if_neg (by rw [hzero idx x hx]; exact Int.lt_irrefl 0)]
      rfl

/-- In a run whose steps are in order, what is copied is what has come, every completion is credited to
its transfer, and from every state the threads and the completions bring what is in flight to zero,
so that closing comes to its end. -/
theorem received_throughout (es : List Event) (h : Machine.Along next Orderly init es) :
    Machine.Throughout next Good init es ∧
      Gives (Machine.run next init es) fun s =>
        ∃ ends : List Event, (∀ e ∈ ends, e.isBackground = true) ∧
          Gives (Machine.run next s ends) fun t =>
            t.killing = none ∧ ∀ idx x, t.recvAt idx = some x → x.inFlight = 0 := by
  constructor
  · refine (Machine.throughout_of_along (fun s e s' hs he hstep => ?_) Inv.init h).imp
      fun s hs => hs.good
    obtain ⟨t, ht, hinv⟩ := hs.next he
    obtain rfl := Except.ok.inj (hstep.symm.trans ht)
    exact hinv
  · refine (Gives.run_along (fun s e hs he => hs.next he) Inv.init h).mono fun s hs => ?_
    obtain ⟨ends, hends, t, hrun, ht, hnone⟩ := hs.settles
    have hzero : ∀ idx x, t.recvAt idx = some x → x.inFlight = 0 :=
      fun idx x hx => ht.inFlight_eq_zero hnone hx
    refine ⟨ends ++ [.killed], fun e he => ?_, t.killDccXfer, ?_, killDccXfer_killing hzero, ?_⟩
    · rcases List.mem_append.1 he with he | he
      · exact hends e he
      · rw [List.mem_singleton.1 he]
        rfl
    · rw [Machine.run_append, hrun]
      rfl
    · have hkilled := ht.killDccXfer
      refine fun idx x hx => hkilled.inFlight_eq_zero ?_ hx
      have hsame : t.killDccXfer.flushes = t.flushes := by
        unfold State.killDccXfer State.lostdcc
        split
        · rfl
        · split
          · split
            · rfl
            · rfl
          · rfl
      exact hsame.trans hnone

def sevens : Chunk := ⟨List.replicate 16384 7, by rw [List.length_replicate]; decide⟩

/-- Half a buffer comes in, is written and copied; the next transfer turns out too long, and its file
is closed by a thread. -/
def transfers : List Event :=
  [.accept 32768, .chunk 0 sevens, .chunk 0 sevens, .worker 0, .done, .eof 0 true, .removeLost,
    .accept 3, .chunk 0 ⟨[104, 101, 108, 108, 111], by decide⟩, .connect false, .worker 0, .done,
    .reap 0, .removeLost]

theorem received_throughout_transfers : Machine.Throughout next Good init transfers ∧
    Gives (Machine.run next init transfers) fun s =>
      ∃ ends : List Event, (∀ e ∈ ends, e.isBackground = true) ∧
        Gives (Machine.run next s ends) fun t =>
          t.killing = none ∧ ∀ idx x, t.recvAt idx = some x → x.inFlight = 0 :=
  received_throughout transfers (by decide +kernel)

/-- What comes in is still in the buffer where the file is copied. -/
theorem not_good : ¬ ∀ es, Machine.Throughout next Good init es := by
  intro h
  obtain ⟨s, hrun, hdelivered⟩ : Gives (Machine.run next init
      [.accept 5, .chunk 0 ⟨[104, 101, 108, 108, 111], by decide⟩, .eof 0 true])
      fun s => decide (s.delivered = [⟨[], [104, 101, 108, 108, 111]⟩]) = true :=
    Gives.of_any (by decide +kernel)
  have hgood := ((h _).last hrun).delivered ⟨[], [104, 101, 108, 108, 111]⟩
    (by rw [of_decide_eq_true hdelivered]; exact List.mem_singleton_self _)
  cases hgood

end Eggdrop.Receive
