import P4Bricks.Learning.Records
import Mathlib.Data.List.Forall2
/-!
# What is sent of the samples

Every sample that was accepted is in one place: in a message, in the buffer that
is to be sent, or in the one that is filled, in the order of acceptance
(`Placed`). Two buffers can do with one number for both because the transmit
thread keeps the others from swapping as long as the one it sends has bytes: the
number it reads without a lock is that of the buffer it sends plus one.

So all rests on buffers having bytes. A sample without any, of a list with no
fields or with one of variable length, makes a buffer look as if it had been
sent. Its samples are lost, or another buffer takes its place while it is sent.
`Regular` keeps to buffers with bytes, and to sizes that the message can hold.
-/

namespace P4Bricks

namespace Learning

/-- The bytes of samples. -/
def Log.bytes (log : Log) (ns : List ℕ) : ByteContainer := ns.flatMap fun n => log.accepted.getD n []

/-! ## The condition -/

/-- Numbers that the header of the message and its length can hold. -/
def Sized (s : LearnList) : Prop :=
  s.bufferId + 1 < 2 ^ 64 ∧ s.numSamples < 2 ^ 32 ∧
    (s.learnMode = .writer → s.buffer.length < 2 ^ 32)

/-- A buffer that a packet thread swaps has bytes, unless it has no sample, and the
transmit thread is not sending one without. -/
def SwapOk (s : LearnList) : Prop :=
  (s.buffer ≠ [] ∨ s.numSamples = 0) ∧ s.transmit = .idle ∧ Sized s

/-- Swaps are as they should be, only buffers that were sent are acknowledged, and
each of their samples once. -/
def Regular (s : LearnList) (log : Log) : Step → Prop
  | .addSample phv _ => s.builder.sample phv ∉ s.filter.map Prod.snd →
    s.maxSamples ≤ s.numSamples + 1 → s.bufferTmp = [] → SwapOk (s.insert (s.builder.sample phv))
  | .setMaxSamples nbSamples => 0 < s.numSamples → nbSamples ≤ s.numSamples → s.bufferTmp = [] →
    SwapOk s
  | .resume => SwapOk s
  | .beginTransmit _ => s.bufferTmp = [] → Sized s
  | .ack b sampleIds => b ∈ log.sent.map (·.hdr.bufferId) ∧ Recorded.AckOk s b sampleIds
  | .ackBuffer b => b ∈ log.sent.map (·.hdr.bufferId) ∧ Recorded.AckBufferOk s b
  | .resetState => False
  | _ => True

/-! ## Where the samples are -/

/-- A message has these samples, and what is recorded of its buffer, as long as
some of them are not acknowledged, is them too. -/
structure Carries (oldBuffers : ℕ → Option FilterPtrs) (log : Log) (msg : Message)
    (ns : List ℕ) : Prop where
  numSamples : msg.hdr.numSamples = ns.length
  samples : msg.samples = log.bytes ns
  recorded : ∀ ptrs, oldBuffers msg.hdr.bufferId = some ptrs → ptrs.buffer = ns
  dropped : oldBuffers msg.hdr.bufferId = none → ∀ n ∈ ns, n ∈ log.removed

/-- The buffer that is to be sent: what is recorded of the one before the current,
of a size that can be sent. -/
def Pending (s : LearnList) (ns : List ℕ) : Prop :=
  ∃ b, s.bufferId = b + 1 ∧ (s.oldBuffers b).map FilterPtrs.buffer = some ns ∧
    ns.length < 2 ^ 32 ∧ (s.learnMode = .writer → s.bufferTmp.length < 2 ^ 32)

/-- The buffer that is to be sent, as the transmit thread goes on. -/
def Phase (s : LearnList) (log : Log) (tmp : List ℕ) : Prop :=
  match s.transmit with
  | .idle => s.bufferTmp = log.bytes tmp ∧
    (tmp ≠ [] → s.bufferTmp ≠ [] ∧ Pending s tmp ∧ s.numSamplesTmp = tmp.length)
  | .sending n => s.bufferTmp = log.bytes tmp ∧ tmp ≠ [] ∧ Pending s tmp ∧ n = tmp.length
  | .headed n b => s.bufferTmp = log.bytes tmp ∧ tmp ≠ [] ∧ Pending s tmp ∧ n = tmp.length ∧
    b + 1 = s.bufferId
  | .sent => tmp = []

/-- **Where the samples are**: those of the messages, those that are to be sent,
and those of the buffer that is filled. -/
structure Placed (s : LearnList) (log : Log) (parts : List (List ℕ)) (tmp cur : List ℕ) :
    Prop where
  order : parts.flatten ++ tmp ++ cur = List.range log.accepted.length
  sent : List.Forall₂ (Carries s.oldBuffers log) log.sent parts
  ids : (log.sent.map (·.hdr.bufferId)).Pairwise (· < ·)
  ids_lt : ∀ b ∈ log.sent.map (·.hdr.bufferId), b < s.bufferId ∧ (tmp ≠ [] → b + 1 < s.bufferId)
  phase : Phase s log tmp
  buffer : s.buffer = log.bytes cur
  numSamples : s.numSamples = cur.length
  recorded : (s.oldBuffers s.bufferId).map FilterPtrs.buffer = if cur = [] then none else some cur
  unused : ∀ b, s.bufferId < b → s.oldBuffers b = none
  id_lt : s.bufferId < 2 ^ 64
  mode : s.learnMode ≠ .none

namespace Placed

variable {s s' : LearnList} {log : Log} {parts : List (List ℕ)} {tmp cur : List ℕ}

theorem create (listId deviceId cxtId : ℤ) (builder : LearnSampleBuilder) {mode : LearnMode}
    (hmode : mode ≠ .none) (maxSamples timeoutMs : ℕ) :
    Placed (.create listId deviceId cxtId builder mode maxSamples timeoutMs) {} [] [] [] where
  order := rfl
  sent := .nil
  ids := .nil
  ids_lt _ hb := absurd hb List.not_mem_nil
  phase := ⟨rfl, fun h => absurd rfl h⟩
  buffer := rfl
  numSamples := rfl
  recorded := rfl
  unused _ _ := rfl
  id_lt := Nat.two_pow_pos 64
  mode := hmode

/-- What of the list the places depend on. -/
def view (s : LearnList) :=
  (s.transmit, s.bufferTmp, s.numSamplesTmp, s.bufferId, s.oldBuffers, s.learnMode, s.buffer,
    s.numSamples)

theorem congr (h : Placed s log parts tmp cur) (hview : view s' = view s) :
    Placed s' log parts tmp cur := by
  obtain ⟨⟩ := s
  obtain ⟨⟩ := s'
  simp only [view, Prod.mk.injEq] at hview
  obtain ⟨rfl, rfl, rfl, rfl, rfl, rfl, rfl, rfl⟩ := hview
  exact ⟨h.order, h.sent, h.ids, h.ids_lt, h.phase, h.buffer, h.numSamples, h.recorded, h.unused,
    h.id_lt, h.mode⟩

/-- The nodes in the places are those of the samples. -/
theorem mem_lt (h : Placed s log parts tmp cur) {n : ℕ} :
    n ∈ parts.flatten ∨ n ∈ tmp ∨ n ∈ cur → n < log.accepted.length := by
  intro hn
  have hmem : n ∈ parts.flatten ++ tmp ++ cur := by
    rw [List.mem_append, List.mem_append, or_assoc]
    exact hn
  rw [h.order] at hmem
  exact List.mem_range.mp hmem

/-- Nothing is to be sent when the second buffer is empty and the thread idle. -/
theorem tmp_eq_nil (h : Placed s log parts tmp cur) (hidle : s.transmit = .idle)
    (hempty : s.bufferTmp = []) : tmp = [] := by
  by_contra hne
  have hphase := h.phase
  rw [Phase, hidle] at hphase
  exact (hphase.2 hne).1 hempty

/-! ## A new sample -/

theorem bytes_accept (x : ByteContainer) {ns : List ℕ} (hlt : ∀ n ∈ ns, n < log.accepted.length) :
    Log.bytes { log with accepted := log.accepted ++ [x] } ns = log.bytes ns := by
  unfold Log.bytes
  refine List.flatMap_congr fun n hn => ?_
  simp only [List.getD_eq_getElem?_getD]
  rw [List.getElem?_append_left (hlt n hn)]

theorem bytes_accept_concat (x : ByteContainer) {ns : List ℕ}
    (hlt : ∀ n ∈ ns, n < log.accepted.length) :
    Log.bytes { log with accepted := log.accepted ++ [x] } (ns ++ [log.accepted.length]) =
      log.bytes ns ++ x := by
  have hlast : Log.bytes { log with accepted := log.accepted ++ [x] } [log.accepted.length] = x := by
    simp [Log.bytes]
  have happend : Log.bytes { log with accepted := log.accepted ++ [x] }
      (ns ++ [log.accepted.length]) = _ ++ Log.bytes _ [log.accepted.length] :=
    List.flatMap_append
  rw [happend, hlast]
  exact congrArg (· ++ x) (bytes_accept x hlt)

/-- The phase looks at the records of buffers before the current one only. -/
theorem phase_congr (h : Phase s log tmp) {log' : Log} (hbytes : log'.bytes tmp = log.bytes tmp)
    (ht : s'.transmit = s.transmit) (hb : s'.bufferTmp = s.bufferTmp)
    (hn : s'.numSamplesTmp = s.numSamplesTmp) (hid : s'.bufferId = s.bufferId)
    (hm : s'.learnMode = s.learnMode)
    (hold : ∀ b, s.bufferId = b + 1 → tmp ≠ [] → s'.oldBuffers b = s.oldBuffers b) :
    Phase s' log' tmp := by
  have hpending : tmp ≠ [] → Pending s tmp → Pending s' tmp := by
    rintro hne ⟨b, hb', hrec, hnum, hsize⟩
    refine ⟨b, hid.trans hb', ?_, hnum, ?_⟩
    · rw [hold b hb' hne]
      exact hrec
    · rw [hm, hb]
      exact hsize
  unfold Phase at h ⊢
  rw [ht]
  cases hs : s.transmit with
  | idle =>
    simp only [hs] at h ⊢
    rw [hb, hn, hbytes]
    exact ⟨h.1, fun hne => ⟨(h.2 hne).1, hpending hne (h.2 hne).2.1, (h.2 hne).2.2⟩⟩
  | sending n =>
    simp only [hs] at h ⊢
    rw [hb, hbytes]
    exact ⟨h.1, h.2.1, hpending h.2.1 h.2.2.1, h.2.2.2⟩
  | headed n b =>
    simp only [hs] at h ⊢
    rw [hb, hbytes, hid]
    exact ⟨h.1, h.2.1, hpending h.2.1 h.2.2.1, h.2.2.2⟩
  | sent =>
    simp only [hs] at h ⊢
    exact h

/-- Messages keep what they carry. -/
theorem sent_imp {f g : ℕ → Option FilterPtrs} {log' : Log} {msgs : List Message}
    (h : List.Forall₂ (Carries f log) msgs parts)
    (hstep : ∀ msg ∈ msgs, ∀ ns ∈ parts, Carries f log msg ns → Carries g log' msg ns) :
    List.Forall₂ (Carries g log') msgs parts := by
  induction h with
  | nil => exact .nil
  | cons hone _ ih =>
    refine .cons (hstep _ List.mem_cons_self _ List.mem_cons_self hone) (ih ?_)
    exact fun msg hm ns hn => hstep msg (List.mem_cons_of_mem _ hm) ns (List.mem_cons_of_mem _ hn)

theorem id_of_mem (h : Placed s log parts tmp cur) {msg : Message} (hm : msg ∈ log.sent) :
    msg.hdr.bufferId < s.bufferId ∧ (tmp ≠ [] → msg.hdr.bufferId + 1 < s.bufferId) :=
  h.ids_lt _ (List.mem_map_of_mem hm)

theorem insert (h : Placed s log parts tmp cur) (hrec : Recorded s log) (x : ByteContainer) :
    Placed (s.insert x) { log with accepted := log.accepted ++ [x] } parts tmp
      (cur ++ [log.accepted.length]) := by
  -- The sample goes to the current buffer; those already sent keep what they recorded.
  have hother : ∀ b, b < s.bufferId → (s.insert x).oldBuffers b = s.oldBuffers b := by
    intro b hb
    exact Function.update_of_ne (by omega) ..
  refine ⟨?_, ?_, h.ids, h.ids_lt, ?_, ?_, ?_, ?_, fun b hb => ?_, h.id_lt, h.mode⟩
  · rw [List.length_append, List.length_singleton, List.range_succ, ← h.order]
    simp only [List.append_assoc]
  · refine sent_imp h.sent fun msg hm ns hns hc => ?_
    have hb := hother _ (h.id_of_mem hm).1
    have hlt : ∀ n ∈ ns, n < log.accepted.length := fun n hn =>
      h.mem_lt (.inl (List.mem_flatten.mpr ⟨ns, hns, hn⟩))
    refine ⟨hc.numSamples, ?_, ?_, ?_⟩
    · rw [bytes_accept x hlt]
      exact hc.samples
    · rw [hb]
      exact hc.recorded
    · rw [hb]
      exact hc.dropped
  · have hbytes := bytes_accept x fun n hn => h.mem_lt (n := n) (.inr (.inl hn))
    exact phase_congr h.phase hbytes rfl rfl rfl rfl rfl fun b hb _ => hother b (by omega)
  · rw [bytes_accept_concat x fun n hn => h.mem_lt (n := n) (.inr (.inr hn)), ← h.buffer]
    rfl
  · rw [List.length_append, List.length_singleton, ← h.numSamples]
    rfl
  · have hold := h.recorded
    have hnew : (s.insert x).oldBuffers (s.insert x).bufferId =
        some (FilterPtrs.push (s.oldBuffers s.bufferId) s.allocated) := Function.update_self ..
    rw [hnew, if_neg (List.append_ne_nil_of_right_ne_nil _ (List.cons_ne_nil _ _)),
      Option.map_some, FilterPtrs.push, hrec.allocated]
    cases hb : s.oldBuffers s.bufferId with
    | none =>
      rw [hb] at hold
      split_ifs at hold with hcur
      · rw [hcur]
        rfl
      · cases hold
    | some ptrs =>
      rw [hb] at hold
      split_ifs at hold with hcur
      · cases hold
      · rw [← Option.some.inj hold]
        rfl
  · have hb' : s.bufferId < b := hb
    exact (Function.update_of_ne (by omega) ..).trans (h.unused b hb')

/-! ## Swaps -/

/-- What is in the buffer becomes what is to be sent. -/
theorem pending_swap (h : Placed s log parts tmp cur) (hsized : Sized s) (hne : cur ≠ [])
    (t : Transmit) : Pending { s.swapBuffers with transmit := t } cur := by
  have hrec := h.recorded
  rw [if_neg hne] at hrec
  refine ⟨s.bufferId, Nat.mod_eq_of_lt hsized.1, hrec, ?_, hsized.2.2⟩
  rw [← h.numSamples]
  exact hsized.2.1

theorem swap (h : Placed s log parts tmp cur) (hidle : s.transmit = .idle)
    (hempty : s.bufferTmp = []) (hsized : Sized s) {t : Transmit}
    (hphase : Phase { s.swapBuffers with transmit := t } log cur) :
    Placed { s.swapBuffers with transmit := t } log parts cur [] := by
  have htmp := h.tmp_eq_nil hidle hempty
  have hid : s.swapBuffers.bufferId = s.bufferId + 1 := Nat.mod_eq_of_lt hsized.1
  refine ⟨?_, h.sent, h.ids, fun b hb => ?_, hphase, ?_, rfl, ?_, fun b hb => ?_, ?_, h.mode⟩
  · rw [List.append_nil, ← h.order, htmp, List.append_nil]
  · have := (h.ids_lt b hb).1
    simp only [hid]
    omega
  · exact hempty
  · rw [if_pos rfl]
    have : s.oldBuffers s.swapBuffers.bufferId = none := h.unused _ (by omega)
    exact congrArg (Option.map FilterPtrs.buffer) this
  · have : s.swapBuffers.bufferId < b := hb
    exact h.unused b (by omega)
  · have := hsized.1
    simp only [hid]
    omega

/-- A packet thread swaps. -/
theorem swapBuffers (h : Placed s log parts tmp cur) (hempty : s.bufferTmp = [])
    (hok : SwapOk s) : Placed s.swapBuffers log parts cur [] := by
  obtain ⟨hbytes, hidle, hsized⟩ := hok
  have hsame : { s.swapBuffers with transmit := .idle } = s.swapBuffers := by
    rw [← hidle]
    rfl
  rw [← hsame]
  refine h.swap hidle hempty hsized ⟨h.buffer, fun hne => ⟨?_, h.pending_swap hsized hne _, ?_⟩⟩
  · refine hbytes.resolve_right fun hzero => hne ?_
    rw [h.numSamples] at hzero
    exact List.length_eq_zero_iff.mp hzero
  · exact h.numSamples

theorem processFullBuffer (h : Placed s log parts tmp cur) (hok : s.bufferTmp = [] → SwapOk s) :
    ∃ tmp cur, Placed s.processFullBuffer log parts tmp cur := by
  unfold LearnList.processFullBuffer
  split_ifs with hfull
  · exact ⟨tmp, cur, h.congr rfl⟩
  · have hempty : s.bufferTmp = [] := List.length_eq_zero_iff.mp (not_not.mp hfull)
    exact ⟨cur, [], h.swapBuffers hempty (hok hempty)⟩

theorem afterInsert (h : Placed s log parts tmp cur) (now : ℕ)
    (hok : s.maxSamples ≤ s.numSamples → s.bufferTmp = [] → SwapOk s) :
    ∃ tmp cur, Placed (s.afterInsert now) log parts tmp cur := by
  unfold LearnList.afterInsert
  split_ifs with hfirst hfull
  · exact ⟨tmp, cur, h.congr rfl⟩
  · exact h.processFullBuffer (hok hfull)
  · exact ⟨tmp, cur, h⟩

/-! ## The transmit thread -/

theorem beginTransmit (h : Placed s log parts tmp cur) {now : ℕ}
    (hs : s.beginTransmit now = some s') (hok : s.bufferTmp = [] → Sized s) :
    ∃ tmp cur, Placed s' log parts tmp cur := by
  obtain ⟨hidle, ⟨hempty, hpos, rfl⟩ | ⟨hfull, rfl⟩⟩ := LearnList.beginTransmit_eq_some hs
  · have hne : cur ≠ [] := by
      rintro rfl
      rw [h.numSamples] at hpos
      exact absurd hpos (lt_irrefl 0)
    refine ⟨cur, [], h.swap hidle hempty (hok hempty) ?_⟩
    exact ⟨h.buffer, hne, h.pending_swap (hok hempty) hne _, h.numSamples⟩
  · have hphase := h.phase
    rw [Phase, hidle] at hphase
    have hne : tmp ≠ [] := by
      rintro rfl
      exact hfull hphase.1
    obtain ⟨-, hpending, hnum⟩ := hphase.2 hne
    exact ⟨tmp, cur, h.order, h.sent, h.ids, h.ids_lt, ⟨hphase.1, hne, hpending, hnum⟩, h.buffer,
      h.numSamples, h.recorded, h.unused, h.id_lt, h.mode⟩

theorem readBufferId (h : Placed s log parts tmp cur) (hs : s.readBufferId = some s') :
    Placed s' log parts tmp cur := by
  obtain ⟨n, hn, rfl⟩ := LearnList.readBufferId_eq_some hs
  have hphase := h.phase
  rw [Phase, hn] at hphase
  obtain ⟨hbytes, hne, hpending, hnum⟩ := hphase
  have hid : (s.bufferId + 2 ^ 64 - 1) % 2 ^ 64 + 1 = s.bufferId := by
    obtain ⟨b, hb, -⟩ := hpending
    have := h.id_lt
    omega
  exact ⟨h.order, h.sent, h.ids, h.ids_lt, ⟨hbytes, hne, hpending, hnum, hid⟩, h.buffer,
    h.numSamples, h.recorded, h.unused, h.id_lt, h.mode⟩

/-- **The message** has the number and the samples of the buffer it was made of. -/
theorem carries_message (h : Placed s log parts tmp cur) {n b : ℕ}
    (ht : s.transmit = .headed n b) (hdr : MsgHdr) (hnum : hdr.numSamples = n % 2 ^ 32)
    (hid : hdr.bufferId = b) :
    Carries s.oldBuffers log ⟨hdr, s.payload⟩ tmp ∧ b + 1 = s.bufferId ∧ tmp ≠ [] ∧
      (s.oldBuffers b).map FilterPtrs.buffer = some tmp := by
  have hphase := h.phase
  rw [Phase, ht] at hphase
  obtain ⟨hbytes, hne, ⟨b', hb', hrec, hlt, hsize⟩, hn, hb⟩ := hphase
  obtain rfl : b = b' := by omega
  have hpayload : s.payload = s.bufferTmp := by
    unfold LearnList.payload
    cases hmode : s.learnMode with
    | writer => simp only [Nat.mod_eq_of_lt (hsize hmode), List.take_length]
    | none => rfl
    | cb => rfl
  refine ⟨⟨?_, hpayload.trans hbytes, fun ptrs hp => ?_, fun hp => ?_⟩, hb, hne, hrec⟩
  · rw [hnum, hn, Nat.mod_eq_of_lt hlt]
  · simp only [hid] at hp
    rw [hp] at hrec
    exact Option.some.inj hrec
  · simp only [hid] at hp
    rw [hp] at hrec
    cases hrec

theorem send (h : Placed s log parts tmp cur) {e : Option Event} (hs : s.send = some (s', e)) :
    Placed s' (log.add e) (parts ++ [tmp]) [] cur := by
  obtain ⟨n, b, ht, rfl, rfl⟩ := LearnList.send_eq_some hs
  rw [if_neg h.mode]
  obtain ⟨hcarries, hb, hne, -⟩ := h.carries_message ht
    ⟨s.deviceId, s.cxtId, s.listId, b, n % 2 ^ 32⟩ rfl rfl
  simp only [Log.add]
  refine ⟨?_, ?_, ?_, fun b' hb' => ?_, rfl, h.buffer, h.numSamples, h.recorded, h.unused,
    h.id_lt, h.mode⟩
  · rw [← h.order]
    simp
  · refine List.rel_append (sent_imp h.sent fun msg _ ns _ hc => ?_) (.cons ?_ .nil)
    · exact ⟨hc.numSamples, hc.samples, hc.recorded, hc.dropped⟩
    · exact ⟨hcarries.numSamples, hcarries.samples, hcarries.recorded, hcarries.dropped⟩
  · rw [List.map_append]
    refine List.pairwise_append.mpr ⟨h.ids, List.pairwise_singleton .., fun a ha c hc => ?_⟩
    obtain rfl := List.mem_singleton.mp hc
    have := (h.ids_lt a ha).2 hne
    omega
  · rw [List.map_append] at hb'
    refine ⟨?_, fun hnil => absurd rfl hnil⟩
    rcases List.mem_append.mp hb' with hb' | hb'
    · exact (h.ids_lt b' hb').1
    · obtain rfl := List.mem_singleton.mp hb'
      exact Nat.lt_of_succ_le hb.le

theorem endTransmit (h : Placed s log parts tmp cur) (hs : s.endTransmit = some s') :
    Placed s' log parts tmp cur := by
  obtain ⟨hsent, rfl⟩ := LearnList.endTransmit_eq_some hs
  have hphase := h.phase
  rw [Phase, hsent] at hphase
  have htmp : tmp = [] := hphase
  subst htmp
  exact ⟨h.order, h.sent, h.ids, h.ids_lt, ⟨rfl, fun hne => absurd rfl hne⟩, h.buffer,
    h.numSamples, h.recorded, h.unused, h.id_lt, h.mode⟩

/-! ## Acknowledgements -/

/-- One record is dropped, or keeps its nodes; the rest of the list is as it was
but for the filter. -/
def Drops (s s' : LearnList) (b : ℕ) : Prop :=
  ∃ filter record, s' = { s with
      filter := filter
      oldBuffers := Function.update s.oldBuffers b record } ∧
    ∀ new, record = some new → ∃ old, s.oldBuffers b = some old ∧ new.buffer = old.buffer

theorem Drops.refl (s : LearnList) (b : ℕ) : Drops s s b :=
  ⟨s.filter, s.oldBuffers b, by rw [Function.update_eq_self], fun new hnew => ⟨new, hnew, rfl⟩⟩

theorem drops_ackLoop {b : ℕ} {is : List ℤ} {r : LearnList × List ℕ}
    (hr : LearnList.ackLoop b s is = some r) : Drops s r.1 b := by
  induction is generalizing s r with
  | nil =>
    obtain rfl := Option.some.inj hr
    exact .refl s b
  | cons i is ih =>
    obtain ⟨ptrs, node, ns, hb, -, -, hloop, -⟩ := Recorded.ackLoop_cons hr
    obtain ⟨filter, record, hs, hrec⟩ := ih hloop
    refine ⟨filter, record, ?_, fun new hnew => ?_⟩
    · rw [hs]
      simp only [Recorded.turned, Function.update_idem]
    · obtain ⟨old, hold, heq⟩ := hrec new hnew
      simp only [Recorded.turned, Function.update_self, FilterPtrs.drop] at hold
      split_ifs at hold
      obtain rfl := Option.some.inj hold
      exact ⟨ptrs, hb, heq⟩

theorem drops_ack {b : ℕ} {is : List ℤ} {r : LearnList × List ℕ} (hr : s.ack b is = some r) :
    Drops s r.1 b := by
  unfold LearnList.ack at hr
  split at hr
  · obtain rfl := Option.some.inj hr
    exact .refl s b
  · exact drops_ackLoop hr

theorem drops_ackBuffer {b : ℕ} {r : LearnList × List ℕ} (hr : s.ackBuffer b = some r) :
    Drops s r.1 b := by
  unfold LearnList.ackBuffer at hr
  split at hr
  · obtain rfl := Option.some.inj hr
    exact .refl s b
  · simp only at hr
    split_ifs at hr
    · obtain rfl := Option.some.inj hr
      exact ⟨_, none, rfl, fun new hnew => by cases hnew⟩
    · obtain ⟨g, -, rfl⟩ := Option.map_eq_some_iff.mp hr
      exact ⟨_, none, rfl, fun new hnew => by cases hnew⟩

/-- A buffer that was sent is acknowledged, in part or as a whole. -/
theorem drops (h : Placed s log parts tmp cur) (hrec : Recorded s log) {b : ℕ}
    (hsent : b ∈ log.sent.map (·.hdr.bufferId)) (hd : Drops s s' b) {ns : List ℕ}
    (hrec' : Recorded s' { log with removed := log.removed ++ ns }) :
    Placed s' { log with removed := log.removed ++ ns } parts tmp cur := by
  obtain ⟨filter, record, rfl, hkeeps⟩ := hd
  obtain ⟨hlt, hpre⟩ := h.ids_lt b hsent
  have hother : ∀ b', b' ≠ b → Function.update s.oldBuffers b record b' = s.oldBuffers b' :=
    fun b' hne => Function.update_of_ne hne ..
  refine ⟨h.order, ?_, h.ids, h.ids_lt, ?_, h.buffer, h.numSamples, ?_, fun b' hb' => ?_, h.id_lt,
    h.mode⟩
  · refine sent_imp h.sent fun msg hm part hpart hc => ?_
    by_cases hid : msg.hdr.bufferId = b
    · refine ⟨hc.numSamples, hc.samples, fun new hnew => ?_, fun hnone n hn => ?_⟩
      · simp only [hid, Function.update_self] at hnew
        obtain ⟨old, hold, heq⟩ := hkeeps new hnew
        rw [heq]
        exact hc.recorded old (hid ▸ hold)
      · -- The record is gone. A node that were left would be in that of another buffer.
        by_contra hleft
        have hlen := h.mem_lt (.inl (List.mem_flatten.mpr ⟨part, hpart, hn⟩))
        obtain ⟨b', ptrs', hb', hmem⟩ := hrec'.covered n hlen hleft
        have hbb : b' ≠ b := by
          rintro rfl
          rw [hid] at hnone
          rw [hnone] at hb'
          cases hb'
        simp only [hother b' hbb] at hb'
        cases hold : s.oldBuffers b with
        | none =>
          exact hleft (List.mem_append_left _ (hc.dropped (hid ▸ hold) n hn))
        | some old =>
          have hn' : n ∈ old.buffer := by rwa [hc.recorded old (hid ▸ hold)]
          exact hbb (hrec.disjoint b' b ptrs' old n hb' hold hmem hn')
    · have hsame := hother _ hid
      refine ⟨hc.numSamples, hc.samples, ?_, fun hnone n hn => ?_⟩
      · simp only [hsame]
        exact hc.recorded
      · simp only [hsame] at hnone
        exact List.mem_append_left _ (hc.dropped hnone n hn)
  · refine phase_congr h.phase rfl rfl rfl rfl rfl rfl fun b' hb' hne => hother b' ?_
    have := hpre hne
    omega
  · have := h.recorded
    rwa [← hother s.bufferId (by omega)] at this
  · have : s.bufferId < b' := hb'
    exact (hother b' (by omega)).trans (h.unused b' this)

/-! ## Runs -/

/-- **One step** keeps every sample in its place. -/
theorem step (h : Placed s log parts tmp cur) (hrec : Recorded s log) {r : Step}
    {e : Option Event} (hok : Regular s log r) (hstep : s.step r = some (s', e)) :
    ∃ parts tmp cur, Placed s' (log.add e) parts tmp cur := by
  have hrec' := hrec.step hstep
  -- Samples come in at one end and are moved as a whole; an acknowledgement may drop some, and
  -- leaves the order of the others.
  cases r with
  | addSample phv now =>
    rcases s.addSample_cases phv now with heq | ⟨hx, heq⟩
    · obtain ⟨rfl, rfl⟩ := Prod.mk.inj (heq.symm.trans (Option.some.inj hstep))
      exact ⟨parts, tmp, cur, h⟩
    · obtain ⟨rfl, rfl⟩ := Prod.mk.inj (heq.symm.trans (Option.some.inj hstep))
      exact ⟨parts, (h.insert hrec _).afterInsert now (hok hx)⟩
  | setMaxSamples nbSamples =>
    obtain ⟨rfl, rfl⟩ := Prod.mk.inj (Option.some.inj hstep)
    have hset : Placed { s with maxSamples := nbSamples } log parts tmp cur := h.congr rfl
    rcases s.setMaxSamples_cases nbSamples with heq | ⟨hpos, hle, heq⟩
    · rw [heq]
      exact ⟨parts, tmp, cur, hset⟩
    · rw [heq]
      exact ⟨parts, hset.processFullBuffer (hok hpos hle)⟩
  | setTimeout timeoutMs =>
    obtain ⟨rfl, rfl⟩ := Prod.mk.inj (Option.some.inj hstep)
    exact ⟨parts, tmp, cur, h.congr rfl⟩
  | resume =>
    obtain ⟨s'', hs, heq⟩ := Option.map_eq_some_iff.mp hstep
    obtain ⟨rfl, rfl⟩ := Prod.mk.inj heq
    obtain ⟨hempty, rfl⟩ := LearnList.resume_eq_some hs
    exact ⟨parts, cur, [], (h.swapBuffers hempty hok).congr rfl⟩
  | beginTransmit now =>
    obtain ⟨s'', hs, heq⟩ := Option.map_eq_some_iff.mp hstep
    obtain ⟨rfl, rfl⟩ := Prod.mk.inj heq
    exact ⟨parts, h.beginTransmit hs hok⟩
  | readBufferId =>
    obtain ⟨s'', hs, heq⟩ := Option.map_eq_some_iff.mp hstep
    obtain ⟨rfl, rfl⟩ := Prod.mk.inj heq
    exact ⟨parts, tmp, cur, h.readBufferId hs⟩
  | send => exact ⟨_, _, _, h.send hstep⟩
  | endTransmit =>
    obtain ⟨s'', hs, heq⟩ := Option.map_eq_some_iff.mp hstep
    obtain ⟨rfl, rfl⟩ := Prod.mk.inj heq
    exact ⟨parts, tmp, cur, h.endTransmit hs⟩
  | ack b is =>
    obtain ⟨r, hr, heq⟩ := Option.map_eq_some_iff.mp hstep
    obtain ⟨rfl, rfl⟩ := Prod.mk.inj heq
    exact ⟨parts, tmp, cur, h.drops hrec hok.1 (drops_ack hr) hrec'⟩
  | ackBuffer b =>
    obtain ⟨r, hr, heq⟩ := Option.map_eq_some_iff.mp hstep
    obtain ⟨rfl, rfl⟩ := Prod.mk.inj heq
    exact ⟨parts, tmp, cur, h.drops hrec hok.1 (drops_ackBuffer hr) hrec'⟩
  | resetState => exact absurd hok id

theorem run {s₀ : LearnList} (h₀ : Placed s₀ {} [] [] []) (hrec₀ : Recorded s₀ {})
    (hrun : RunIf Regular s₀ log s) : ∃ parts tmp cur, Placed s log parts tmp cur := by
  induction hrun with
  | nil => exact ⟨_, _, _, h₀⟩
  | snoc hrun hok hstep ih =>
    obtain ⟨parts, tmp, cur, h⟩ := ih
    exact h.step (hrec₀.run hrun) hok hstep

end Placed

/-! ## The lists -/

/-- **What learning should be.** The samples accepted, in order, are those of the
messages, those that the transmit thread is to send, and those of the buffer that
is filled. The filter is what was accepted and not acknowledged, no sample twice,
each recorded for one buffer. -/
structure Learned (s : LearnList) (log : Log) : Prop where
  samples : ∃ parts tmp cur, parts.flatten ++ tmp ++ cur = List.range log.accepted.length ∧
    List.Forall₂ (Carries s.oldBuffers log) log.sent parts ∧
    (tmp ≠ [] → s.bufferTmp = log.bytes tmp ∧ (s.transmit = .idle → s.bufferTmp ≠ [])) ∧
    s.buffer = log.bytes cur ∧ s.numSamples = cur.length
  ids : (log.sent.map (·.hdr.bufferId)).Nodup
  filter : ∀ n x, (n, x) ∈ s.filter ↔ log.accepted[n]? = some x ∧ n ∉ log.removed
  distinct : (s.filter.map Prod.snd).Nodup
  recorded : ∀ n ∈ s.filter.map Prod.fst, ∃! b, ∃ ptrs, s.oldBuffers b = some ptrs ∧
    n ∈ ptrs.buffer

/-- A message that is sent has the samples recorded of its buffer. -/
def Sends (s : LearnList) (log : Log) : Prop :=
  ∀ s' msg, s.send = some (s', some (.sent msg)) →
    ∃ ptrs, s.oldBuffers msg.hdr.bufferId = some ptrs ∧
      msg.hdr.numSamples = ptrs.buffer.length ∧ msg.samples = log.bytes ptrs.buffer

theorem Placed.samples {s : LearnList} {log : Log} {parts : List (List ℕ)} {tmp cur : List ℕ}
    (h : Placed s log parts tmp cur) (hne : tmp ≠ []) :
    s.bufferTmp = log.bytes tmp ∧ (s.transmit = .idle → s.bufferTmp ≠ []) := by
  have hphase := h.phase
  unfold Phase at hphase
  cases ht : s.transmit with
  | idle =>
    rw [ht] at hphase
    exact ⟨hphase.1, fun _ => (hphase.2 hne).1⟩
  | sending n =>
    rw [ht] at hphase
    exact ⟨hphase.1, fun h => by cases h⟩
  | headed n b =>
    rw [ht] at hphase
    exact ⟨hphase.1, fun h => by cases h⟩
  | sent =>
    rw [ht] at hphase
    exact absurd hphase hne

/-- **Lists learn**, in every run in which buffers that are swapped have bytes. -/
theorem RunIf.learned {listId deviceId cxtId : ℤ} {builder : LearnSampleBuilder}
    {mode : LearnMode} (hmode : mode ≠ .none) {maxSamples timeoutMs : ℕ} {log : Log}
    {s : LearnList}
    (hrun : RunIf Regular (.create listId deviceId cxtId builder mode maxSamples timeoutMs) log s) :
    Learned s log ∧ Sends s log := by
  have hrec := Recorded.run (Recorded.create ..) hrun
  obtain ⟨parts, tmp, cur, h⟩ := Placed.run (Placed.create _ _ _ _ hmode _ _)
    (Recorded.create ..) hrun
  refine ⟨⟨⟨parts, tmp, cur, h.order, h.sent, h.samples, h.buffer, h.numSamples⟩, ?_,
    hrec.mem_filter, hrec.samples_nodup, fun n hn => ?_⟩, fun s' msg hs => ?_⟩
  · exact h.ids.imp fun hlt => hlt.ne
  · obtain ⟨hlt, hnot⟩ := hrec.mem_nodes_iff.mp hn
    obtain ⟨b, ptrs, hb, hmem⟩ := hrec.covered n hlt hnot
    refine ⟨b, ⟨ptrs, hb, hmem⟩, fun b' ⟨ptrs', hb', hmem'⟩ => ?_⟩
    exact hrec.disjoint b' b ptrs' ptrs n hb' hb hmem' hmem
  · obtain ⟨n, b, ht, -, he⟩ := LearnList.send_eq_some hs
    rw [if_neg h.mode] at he
    obtain rfl := Event.sent.inj (Option.some.inj he)
    obtain ⟨hcarries, -, -, hbuf⟩ := h.carries_message ht
      ⟨s.deviceId, s.cxtId, s.listId, b, n % 2 ^ 32⟩ rfl rfl
    obtain ⟨ptrs, hptrs, rfl⟩ := Option.map_eq_some_iff.mp hbuf
    exact ⟨ptrs, hptrs, hcarries.numSamples, hcarries.samples⟩

/-- Two samples are sent, and the first one acknowledged. -/
theorem learned_two :
    ∃ log s, Learned s log ∧ Sends s log ∧ log.accepted = [[1], [2]] ∧ log.removed = [0] ∧
      log.sent.map (fun m => (m.hdr.bufferId, m.hdr.numSamples, m.samples)) = [(0, 2, [1, 2])] := by
  have start : RunIf Regular (.create 0 0 0 oneField .writer 2 0) {} _ := .nil _
  have full := (start.snoc (r := .addSample (packet 1) 0) (by
    intro _ hle
    exact absurd hle (by decide)) rfl).snoc (r := .addSample (packet 2) 0)
      (by
        intro _ _ _
        exact ⟨.inl (List.cons_ne_nil _ _), rfl, by decide, by decide, fun _ => by decide⟩) rfl
  have sent := (((full.snoc (r := .beginTransmit 0) (fun h => absurd h (by decide)) rfl).snoc
    (r := .readBufferId) trivial rfl).snoc (r := .send) trivial rfl).snoc
    (r := .endTransmit) trivial rfl
  have run := sent.snoc (r := .ack 0 [0]) ⟨by decide, by
    rintro ptrs ⟨⟩
    refine ⟨by decide, fun i hi => ⟨0, ?_⟩⟩
    obtain rfl := List.mem_singleton.mp hi
    exact ⟨rfl, by decide⟩⟩ rfl
  obtain ⟨hlist, hsends⟩ := RunIf.learned (by decide) run
  exact ⟨_, _, hlist, hsends, rfl, rfl, rfl⟩

/-- **A list without fields.** Its only sample is in the second buffer, which the
transmit thread takes for empty. -/
theorem empty_sample_lost :
    ∃ log s, RunIf (fun _ _ _ => True) (.create 0 0 0 ⟨[], []⟩ .writer 1 1000) log s ∧
      log.accepted = [[]] ∧ log.sent = [] ∧ s.filter = [(0, [])] ∧
      (∀ now, s.beginTransmit now = none) ∧ ¬ Learned s log := by
  have start : RunIf (fun _ _ _ => True) (.create 0 0 0 ⟨[], []⟩ .writer 1 1000) {} _ := .nil _
  have run := start.snoc (r := .addSample (packet 1) 0) trivial rfl
  refine ⟨_, _, run, rfl, rfl, rfl, fun now => rfl, fun h => ?_⟩
  obtain ⟨parts, tmp, cur, horder, hsent, htmp, -, hnum⟩ := h.samples
  obtain rfl : cur = [] := List.length_eq_zero_iff.mp hnum.symm
  obtain rfl : parts = [] := by
    cases hsent
    rfl
  have hne : tmp ≠ [] := by
    rintro rfl
    cases horder
  exact (htmp hne).2 rfl rfl

end Learning

end P4Bricks
