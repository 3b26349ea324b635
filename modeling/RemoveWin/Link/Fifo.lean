import RemoveWin.Link.Output

/-!
# Every byte is sent once

A message to a peer is lost if a byte of it is, so this file is about bytes. What has been added to
the output of a client is what the socket has taken, followed by what is in the buffer and the
chunks from `sentlen` on. Adding keeps this by extending the end, writing by moving bytes from the
front; the two meet in a chunk that is both, and in the nodes that are filled in later, which
nothing added behind them may touch.

It is also about being woken up. A client with bytes to send is in the list of clients to serve
before the next wait, or has a handler for when the socket takes more. Adding relies on this as
well: it lists a client only if there was nothing to send before.

## Main results

* `RemoveWin.OutReply.grows_add` — adding a reply adds its text
* `RemoveWin.outConn_fifo` — what was sent, then what is in the buffers, is what was added
* `RemoveWin.outConn_noted` — no client with something to send is forgotten
* `RemoveWin.outConn_drained` — a socket that takes something each time gets everything that a live
  client is sent
-/

namespace RemoveWin

namespace OutClient

/-! ### The state of the buffers -/

/-- The bytes of a node, with a hole for one that is to be filled in. -/
def nodeBytes : Option Sds → List (Option (Fin 256))
  | none => [none]
  | some s => s.map some

/-- Everything in the buffer and the chunks. -/
def content (c : OutClient) : List (Option (Fin 256)) :=
  c.buf.map some ++ c.reply.flatMap nodeBytes

/-- The number of bytes in the chunks. -/
def listBytes (reply : List (Option Sds)) : ℕ := (reply.map fun s => (s.getD []).length).sum

/-- The length of what is in front: the buffer, or the first chunk. -/
def headLength (c : OutClient) : ℕ :=
  if c.buf = [] then ((c.reply.head?.getD none).getD []).length else c.buf.length

/-- The buffer is not full beyond its end, `reply_bytes` counts the bytes of the list, and what is
in front has not been sent entirely. -/
structure WF (c : OutClient) : Prop where
  room : c.buf.length ≤ protoReplyChunkBytes
  counted : c.replyBytes = listBytes c.reply
  begun : c.sentlen = 0 ∨ c.sentlen < c.headLength

/-- The client is to be served before the next wait, or when its socket is writable. -/
def Listed (c : OutClient) : Prop := c.pendingWrite = true ∨ c.writeHandler = true

/-- A client that has something to send is listed. -/
def Noted (c : OutClient) : Prop := c.clientHasPendingReplies = true → c.Listed

theorem wf_create (f : ClientFlags) : (create f).WF := ⟨Nat.zero_le _, rfl, .inl rfl⟩

theorem clientHasPendingReplies_eq_false_iff (c : OutClient) :
    c.clientHasPendingReplies = false ↔ c.buf = [] ∧ c.reply = [] := by
  simp [clientHasPendingReplies]

end OutClient

open OutClient

/-! ### Adding -/

/-- `c'` is `c` with some bytes at the end. A node that is to be filled in stays where it is, with
all in front of it. -/
structure Puts (c c' : OutClient) (t : List (Option (Fin 256))) : Prop where
  flags : c'.flags = c.flags
  sent : c'.sent = c.sent
  sentlen : c'.sentlen = c.sentlen
  content : c'.content = c.content ++ t
  frozen : ∀ k, c.reply[k]? = some none → c'.reply.take (k + 1) = c.reply.take (k + 1)
  buf : c.reply ≠ [] → c'.buf = c.buf ∧ c'.reply ≠ []
  room : c.buf.length ≤ protoReplyChunkBytes → c'.buf.length ≤ protoReplyChunkBytes
  bytes : c'.replyBytes + listBytes c.reply = c.replyBytes + listBytes c'.reply
  head : c.headLength ≤ c'.headLength
  listed : c.Listed → c'.Listed

/-- What a function that adds does: it also keeps the client listed. -/
structure Grows (c c' : OutClient) (t : List (Option (Fin 256))) : Prop extends Puts c c' t where
  noted : c.flags.Live → c.Noted → c'.Noted

theorem Puts.wf {c c' : OutClient} {t : List (Option (Fin 256))} (h : Puts c c' t) (hwf : c.WF) :
    c'.WF := by
  refine ⟨h.room hwf.room, ?_, ?_⟩
  · have hbytes := h.bytes
    have hcounted := hwf.counted
    omega
  · rw [h.sentlen]
    exact hwf.begun.imp_right fun hlt => hlt.trans_le h.head

theorem Puts.refl (c : OutClient) : Puts c c [] :=
  ⟨rfl, rfl, rfl, (List.append_nil _).symm, fun _ _ => rfl, fun hne => ⟨rfl, hne⟩, id, rfl, le_rfl,
    id⟩

theorem listBytes_append (l l' : List (Option Sds)) :
    listBytes (l ++ l') = listBytes l + listBytes l' := by
  rw [listBytes, List.map_append, List.sum_append]
  rfl

theorem Puts.of_append {c c' : OutClient} (more : List (Option Sds)) (hflags : c'.flags = c.flags)
    (hsent : c'.sent = c.sent) (hsentlen : c'.sentlen = c.sentlen) (hbuf : c'.buf = c.buf)
    (hreply : c'.reply = c.reply ++ more)
    (hbytes : c'.replyBytes = c.replyBytes + listBytes more) (hlisted : c.Listed → c'.Listed) :
    Puts c c' (more.flatMap nodeBytes) where
  flags := hflags
  sent := hsent
  sentlen := hsentlen
  content := by
    rw [OutClient.content, OutClient.content, hbuf, hreply, List.flatMap_append,
      List.append_assoc]
  frozen := by
    intro k hk
    rw [hreply, List.take_append_of_le_length]
    exact (List.getElem?_eq_some_iff.mp hk).1
  buf := fun hne => ⟨hbuf, by simp [hreply, hne]⟩
  room := fun hroom => hbuf ▸ hroom
  bytes := by
    rw [hreply, hbytes, listBytes_append]
    push_cast
    ring
  head := by
    rw [headLength, headLength, hbuf, hreply]
    split
    · cases h : c.reply with
      | nil => exact Nat.zero_le _
      | cons o rest => exact le_rfl
    · exact le_rfl
  listed := hlisted

theorem headLength_dropLast_append {l : List (Option Sds)} {tail : Sds} (s : Sds)
    (hlast : l.getLast? = some (some tail)) :
    ((l.head?.getD none).getD []).length ≤
      (((l.dropLast ++ [some (tail ++ s)]).head?.getD none).getD []).length := by
  match l with
  | [] => simp
  | [o] =>
    obtain rfl : o = some tail := by simpa using hlast
    simp
  | o :: o' :: l => simp

/-- The text that is added, unless the client is about to be closed. -/
def shown (f : ClientFlags) (s : Sds) : List (Option (Fin 256)) :=
  (if f.closeAfterReply then [] else s).map some

theorem puts_pushNode (c : OutClient) (s : Sds) : Puts c (c.pushNode s) (s.map some) := by
  have hputs : Puts c (c.pushNode s) ([some s].flatMap nodeBytes) :=
    Puts.of_append [some s] rfl rfl rfl rfl rfl (by simp [pushNode, listBytes]) id
  simpa [nodeBytes] using hputs

theorem puts_extendLast {c : OutClient} {tail : Sds} (s : Sds)
    (hlast : c.reply.getLast? = some (some tail)) :
    Puts c (c.extendLast tail s) (s.map some) := by
  obtain ⟨init, hinit⟩ : ∃ init, c.reply = init ++ [some tail] :=
    List.getLast?_eq_some_iff.mp hlast
  have hdrop : c.reply.dropLast = init := by rw [hinit, List.dropLast_concat]
  refine ⟨rfl, rfl, rfl, ?_, ?_, fun _ => ⟨rfl, by simp [extendLast]⟩, id, ?_, ?_, id⟩
  · simp [OutClient.content, extendLast, hinit, nodeBytes]
  · -- the last node is not one to be filled in, so those are all in front of it
    intro k hk
    have hlt : k < init.length := by
      have hk' := (List.getElem?_eq_some_iff.mp hk).1
      rw [hinit, List.length_append, List.length_singleton] at hk'
      rcases Nat.lt_or_ge k init.length with hlt | hge
      · exact hlt
      · rw [hinit, show k = init.length by omega] at hk
        simp at hk
    show (c.reply.dropLast ++ _).take (k + 1) = _
    rw [hdrop, hinit, List.take_append_of_le_length hlt, List.take_append_of_le_length hlt]
  · show c.replyBytes + _ + (listBytes c.reply : ℤ) =
      c.replyBytes + (listBytes (c.reply.dropLast ++ _) : ℤ)
    rw [hdrop, hinit, listBytes_append, listBytes_append]
    simp only [listBytes, List.map_cons, List.map_nil, List.sum_cons, List.sum_nil,
      Option.getD_some, List.length_append]
    push_cast
    ring
  · rw [headLength, headLength]
    show _ ≤ if c.buf = [] then _ else c.buf.length
    split
    · exact headLength_dropLast_append s hlast
    · exact le_rfl

theorem puts_addToList (c : OutClient) (s : Sds) : Puts c (c.addToList s) (shown c.flags s) := by
  rw [addToList, shown]
  by_cases hclose : c.flags.closeAfterReply = true
  · rw [if_pos hclose, if_pos hclose]
    exact Puts.refl c
  · rw [if_neg hclose, if_neg hclose]
    split
    · exact puts_pushNode c s
    · split
      · next tail hlast =>
        split
        · exact puts_extendLast s hlast
        · exact puts_pushNode c s
      · exact puts_pushNode c s

theorem puts_addReplyToBuffer {c c' : OutClient} {s : Sds} (h : c.addReplyToBuffer s = some c') :
    Puts c c' (shown c.flags s) := by
  rw [addReplyToBuffer] at h
  rw [shown]
  split_ifs at h with hclose hreply hroom
  · cases h
    rw [if_pos hclose]
    exact Puts.refl c
  · cases h
    rw [if_neg hclose]
    have hnil : c.reply = [] := List.length_eq_zero_iff.mp (by omega)
    refine ⟨rfl, rfl, rfl, ?_, ?_, fun hne => absurd hnil hne, fun hbuf => ?_, rfl, ?_, id⟩
    · simp [OutClient.content, hnil]
    · intro k hk
      simp [hnil] at hk
    · show (c.buf ++ s).length ≤ _
      rw [List.length_append]
      omega
    · rw [headLength, headLength, hnil]
      show _ ≤ if c.buf ++ s = [] then _ else (c.buf ++ s).length
      split <;> split <;> simp_all

theorem puts_getD (c : OutClient) (s : Sds) :
    Puts c ((c.addReplyToBuffer s).getD (c.addToList s)) (shown c.flags s) := by
  cases h : c.addReplyToBuffer s with
  | none => exact puts_addToList c s
  | some c' => exact puts_addReplyToBuffer h

/-! ### Preparing -/

theorem prepareClientToWrite_isSome (c : OutClient) :
    c.prepareClientToWrite.isSome = c.flags.accepts := by
  rw [prepareClientToWrite, ClientFlags.accepts]
  split_ifs <;> grind

/-- Preparing leaves everything as it was, except that the client may be listed. -/
theorem prepareClientToWrite_eq {c c₁ : OutClient} (h : c.prepareClientToWrite = some c₁) :
    ∃ p, c₁ = { c with pendingWrite := p } ∧ (c.pendingWrite = true → p = true) := by
  rw [prepareClientToWrite] at h
  split_ifs at h <;> cases h
  · exact ⟨_, rfl, id⟩
  · exact ⟨true, rfl, fun _ => rfl⟩
  · exact ⟨_, rfl, id⟩

/-- **A client that is prepared is listed**: either it is put into the list now, or it had
something to send before. -/
theorem listed_of_prepareClientToWrite {c c₁ : OutClient} (h : c.prepareClientToWrite = some c₁)
    (hlive : c.flags.Live) (hnoted : c.Noted) : c₁.Listed := by
  obtain ⟨hlua, hreceive⟩ := hlive
  rw [prepareClientToWrite, if_neg (by simp [hlua])] at h
  split_ifs at h with _ _ _ _ hlist <;> cases h
  · exact .inl rfl
  · simp only [hreceive, Bool.and_true, Bool.and_eq_true, Bool.not_eq_true', not_and_or,
      Bool.not_eq_false] at hlist
    rcases hlist with hpending | hpending
    · exact hnoted hpending
    · exact .inl hpending

theorem Grows.refl (c : OutClient) : Grows c c [] := ⟨Puts.refl c, fun _ => id⟩

theorem Puts.trans {c c₁ c₂ : OutClient} {t t' : List (Option (Fin 256))} (h : Puts c c₁ t)
    (h' : Puts c₁ c₂ t') : Puts c c₂ (t ++ t') where
  flags := h'.flags.trans h.flags
  sent := h'.sent.trans h.sent
  sentlen := h'.sentlen.trans h.sentlen
  content := by rw [h'.content, h.content, List.append_assoc]
  frozen := by
    intro k hk
    have hk' : c₁.reply[k]? = some none := by
      have htake := congrArg (·[k]?) (h.frozen k hk)
      simpa [hk] using htake
    rw [h'.frozen k hk', h.frozen k hk]
  buf := by
    intro hne
    obtain ⟨hbuf, hne₁⟩ := h.buf hne
    obtain ⟨hbuf', hne₂⟩ := h'.buf hne₁
    exact ⟨hbuf'.trans hbuf, hne₂⟩
  room := h'.room ∘ h.room
  bytes := by
    have hbytes := h.bytes
    have hbytes' := h'.bytes
    omega
  head := h.head.trans h'.head
  listed := h'.listed ∘ h.listed

theorem Grows.trans {c c₁ c₂ : OutClient} {t t' : List (Option (Fin 256))} (h : Grows c c₁ t)
    (h' : Grows c₁ c₂ t') : Grows c c₂ (t ++ t') :=
  ⟨h.toPuts.trans h'.toPuts, fun hlive hnoted => h'.noted (h.flags ▸ hlive) (h.noted hlive hnoted)⟩

theorem Grows.of_prepared {c c₁ c' : OutClient} {t : List (Option (Fin 256))}
    (hprep : c.prepareClientToWrite = some c₁) (h : Puts c₁ c' t) : Grows c c' t := by
  have hlisted := listed_of_prepareClientToWrite hprep
  obtain ⟨p, rfl, hp⟩ := prepareClientToWrite_eq hprep
  exact ⟨⟨h.flags, h.sent, h.sentlen, h.content, h.frozen, h.buf, h.room, h.bytes, h.head,
    fun hl => h.listed (hl.imp_left hp)⟩, fun hlive hnoted _ => h.listed (hlisted hlive hnoted)⟩

/-! ### The functions that add -/

/-- The text that a client is sent of what is added: none if it does not get replies. -/
def accepted (f : ClientFlags) (s : Sds) : List (Option (Fin 256)) :=
  if f.accepts then s.map some else []

theorem accepted_append (f : ClientFlags) (s s' : Sds) :
    accepted f (s ++ s') = accepted f s ++ accepted f s' := by
  rw [accepted, accepted, accepted]
  split_ifs
  · exact List.map_append
  · rfl

/-- What is added of a text. -/
def shownTo (f : ClientFlags) (s : Sds) : List (Option (Fin 256)) :=
  accepted f (if f.closeAfterReply then [] else s)

theorem shownTo_append (f : ClientFlags) (s s' : Sds) :
    shownTo f (s ++ s') = shownTo f s ++ shownTo f s' := by
  rw [shownTo, shownTo, shownTo, ← accepted_append]
  split_ifs <;> rfl

theorem grows_of_prepare {c c' : OutClient} {s : Sds} (put : OutClient → OutClient)
    (hput : ∀ c₁, Puts c₁ (put c₁) (shown c₁.flags s))
    (hc' : c' = match c.prepareClientToWrite with | none => c | some c₁ => put c₁) :
    Grows c c' (shownTo c.flags s) := by
  have hsome := prepareClientToWrite_isSome c
  cases hprep : c.prepareClientToWrite with
  | none =>
    rw [hprep] at hc' hsome
    rw [hc', shownTo, accepted, ← hsome]
    exact Grows.refl c
  | some c₁ =>
    rw [hprep] at hc' hsome
    obtain ⟨p, rfl, -⟩ := prepareClientToWrite_eq hprep
    rw [hc', shownTo, accepted, ← hsome]
    exact Grows.of_prepared hprep (hput _)

theorem grows_addReplyString (c : OutClient) (s : Sds) :
    Grows c (c.addReplyString s) (shownTo c.flags s) :=
  grows_of_prepare (fun c => (c.addReplyToBuffer s).getD (c.addReplyStringToList s))
    (fun c => puts_getD c s) rfl

theorem grows_addReplySds (c : OutClient) (s : Sds) :
    Grows c (c.addReplySds s) (shownTo c.flags s) :=
  grows_of_prepare (fun c => (c.addReplyToBuffer s).getD (c.addReplySdsToList s))
    (fun c => puts_getD c s) rfl

theorem grows_addReply (c : OutClient) (o : StringObj) :
    Grows c (c.addReply o) (shownTo c.flags o.text) := by
  cases o with
  | raw s =>
    exact grows_of_prepare (fun c => (c.addReplyToBuffer s).getD (c.addReplyObjectToList s))
      (fun c => puts_getD c s) rfl
  | int n =>
    -- the short way and the long way put the same bytes
    refine grows_of_prepare (s := sdsfromlonglong n) (fun c =>
      if c.reply.length = 0 ∧ protoReplyChunkBytes - c.buf.length ≥ 32 then
        (c.addReplyToBuffer (ll2text 32 n)).getD ((c.addReplyToBuffer (ll2text 32 n)).getD
          (c.addToList (ll2text 32 n)))
      else (c.addReplyToBuffer (ll2text 32 n)).getD (c.addToList (ll2text 32 n)))
      (fun c => ?_) rfl
    rw [ll2text_eq (by omega)]
    split
    · cases h : c.addReplyToBuffer (sdsfromlonglong n) with
      | none => exact puts_addToList c _
      | some c' => exact puts_addReplyToBuffer h
    · exact puts_getD c _

theorem Grows.append {c c₁ c₂ : OutClient} {s s' : Sds} (h : Grows c c₁ (shownTo c.flags s))
    (h' : Grows c₁ c₂ (shownTo c₁.flags s')) : Grows c c₂ (shownTo c.flags (s ++ s')) := by
  rw [shownTo_append]
  rw [h.flags] at h'
  exact h.trans h'

theorem text_sharedHeader (pfx : Fin 256) {ll : Int64} (h : ll ≥ 0) :
    (sharedHeader pfx ll.toInt.toNat).text = lineHeader pfx ll := by
  have hpos : 0 ≤ ll.toInt := by simpa [Int64.le_iff_toInt_le] using h
  rw [sharedHeader, StringObj.text, lineHeader, sdsfromlonglong]
  obtain ⟨n, hn⟩ := Int.eq_ofNat_of_zero_le hpos
  rw [hn]
  rfl

theorem text_sharedHeader_ofNat (pfx : Fin 256) {n : ℕ} (h : n < objSharedBulkhdrLen) :
    (sharedHeader pfx n).text = lineHeader pfx (Int64.ofNat n) := by
  have hn : n < 32 := h
  have htoInt : (Int64.ofNat n).toInt = n := Int64.toInt_ofNat_of_lt (by omega)
  rw [sharedHeader, StringObj.text, lineHeader, sdsfromlonglong, htoInt]
  rfl

/-- **Shared headers are headers.** -/
theorem grows_addReplyLongLongWithPrefix (c : OutClient) (ll : Int64) (pfx : Fin 256) :
    Grows c (c.addReplyLongLongWithPrefix ll pfx) (shownTo c.flags (lineHeader pfx ll)) := by
  rw [addReplyLongLongWithPrefix]
  split_ifs with hstar hdollar
  · obtain ⟨rfl, -, hpos⟩ := hstar
    rw [← text_sharedHeader star hpos]
    exact grows_addReply c _
  · obtain ⟨rfl, -, hpos⟩ := hdollar
    rw [← text_sharedHeader dollar hpos]
    exact grows_addReply c _
  · rw [ll2text_eq (by omega)]
    exact grows_addReplyString c _

theorem grows_addReplyLongLong (c : OutClient) (ll : Int64) :
    Grows c (c.addReplyLongLong ll) (shownTo c.flags (lineHeader colon ll)) := by
  rw [addReplyLongLong]
  split_ifs with h0 h1
  · rw [h0]
    exact grows_addReply c _
  · rw [h1]
    exact grows_addReply c _
  · exact grows_addReplyLongLongWithPrefix c ll colon

theorem grows_ite_header (c : OutClient) (n : ℕ) (pfx : Fin 256) :
    Grows c (if n < objSharedBulkhdrLen then c.addReply (sharedHeader pfx n)
      else c.addReplyLongLongWithPrefix (Int64.ofNat n) pfx)
      (shownTo c.flags (lineHeader pfx (Int64.ofNat n))) := by
  split_ifs with h
  · rw [← text_sharedHeader_ofNat pfx h]
    exact grows_addReply c _
  · exact grows_addReplyLongLongWithPrefix c _ pfx

theorem bulkLen_eq (o : StringObj) : bulkLen o = o.text.length := by
  cases o with
  | raw s => rfl
  | int n => exact radixLength_eq n

theorem grows_addReplyBulkLen (c : OutClient) (o : StringObj) :
    Grows c (c.addReplyBulkLen o)
      (shownTo c.flags (lineHeader dollar (Int64.ofNat o.text.length))) := by
  rw [← bulkLen_eq]
  exact grows_ite_header c (bulkLen o) dollar

theorem grows_addReplyBulk (c : OutClient) (o : StringObj) :
    Grows c (c.addReplyBulk o)
      (shownTo c.flags (lineHeader dollar (Int64.ofNat o.text.length) ++ o.text ++ crlf)) :=
  ((grows_addReplyBulkLen c o).append (grows_addReply _ o)).append (grows_addReply _ (.raw crlf))

theorem grows_addReplyString_three (c : OutClient) (s₁ s₂ s₃ : Sds) :
    Grows c (((c.addReplyString s₁).addReplyString s₂).addReplyString s₃)
      (shownTo c.flags (s₁ ++ s₂ ++ s₃)) :=
  ((grows_addReplyString c s₁).append (grows_addReplyString _ s₂)).append
    (grows_addReplyString _ s₃)

/-! ### Numbers that are filled in -/

/-- The nodes behind a filled one, the first of them glued to it. -/
def glue (len : Sds) : List (Option Sds) → List (Option Sds)
  | some next :: rest => some (len ++ next) :: rest
  | rest => some len :: rest

theorem setDeferredMultiBulkLength_eq {c : OutClient} {pre rest : List (Option Sds)}
    (h : c.reply = pre ++ none :: rest) (length : Int64) :
    c.setDeferredMultiBulkLength (some pre.length) length =
      { c with
        reply := pre ++ glue (lineHeader star length) rest
        replyBytes := c.replyBytes + (lineHeader star length).length } := by
  have hdrop : (pre ++ none :: rest).drop (pre.length + 1) = rest := by
    rw [← List.drop_drop, List.drop_left]
    rfl
  rw [setDeferredMultiBulkLength, h]
  simp only [hdrop, List.take_left']
  match rest with
  | [] => rfl
  | none :: _ => rfl
  | some _ :: _ => rfl

theorem flatMap_nodeBytes_glue (len : Sds) (rest : List (Option Sds)) :
    (glue len rest).flatMap nodeBytes = len.map some ++ rest.flatMap nodeBytes := by
  match rest with
  | [] => simp [glue, nodeBytes]
  | none :: _ => simp [glue, nodeBytes]
  | some _ :: _ => simp [glue, nodeBytes]

theorem listBytes_glue (len : Sds) (rest : List (Option Sds)) :
    listBytes (glue len rest) = len.length + listBytes rest := by
  match rest with
  | [] => simp [glue, listBytes]
  | none :: _ => simp [glue, listBytes]
  | some _ :: _ => simp [glue, listBytes, Nat.add_assoc]

/-- **A number that is filled in comes before what was added in between.** The node is the last one
while it is empty, so nothing is appended to it and nothing before it changes. -/
theorem grows_deferred {body : OutClient → OutClient} {s : Bool → Sds}
    (hbody : ∀ c, Grows c (body c) (accepted c.flags (s c.flags.closeAfterReply)))
    (c : OutClient) (length : Int64) :
    Grows c ((body c.addDeferredMultiBulkLength.1).setDeferredMultiBulkLength
      c.addDeferredMultiBulkLength.2 length)
      (accepted c.flags (lineHeader star length ++ s c.flags.closeAfterReply)) := by
  have hsome := prepareClientToWrite_isSome c
  rw [addDeferredMultiBulkLength]
  cases hprep : c.prepareClientToWrite with
  | none =>
    have haccepts : c.flags.accepts = false := by rw [← hsome, hprep]; rfl
    have hgrows := hbody c
    rw [accepted, haccepts] at hgrows ⊢
    exact hgrows
  | some c₁ =>
    have haccepts : c₁.flags.accepts = true := by
      obtain ⟨p, rfl, -⟩ := prepareClientToWrite_eq hprep
      rw [← hsome, hprep]
      rfl
    have hflags : c.flags = c₁.flags := by
      obtain ⟨p, rfl, -⟩ := prepareClientToWrite_eq hprep
      rfl
    refine Grows.of_prepared hprep ?_
    rw [hflags]
    show Puts c₁ ((body { c₁ with reply := c₁.reply ++ [none] }).setDeferredMultiBulkLength
      (some c₁.reply.length) length) _
    set c₂ : OutClient := { c₁ with reply := c₁.reply ++ [none] } with hc₂
    have hgrows := hbody c₂
    have hfrozen := hgrows.frozen c₁.reply.length (by simp [hc₂])
    obtain ⟨hbuf, -⟩ := hgrows.buf (by simp [hc₂])
    set c₃ := body c₂ with hc₃
    obtain ⟨rest, hrest⟩ : ∃ rest, c₃.reply = c₁.reply ++ none :: rest := by
      refine ⟨c₃.reply.drop (c₁.reply.length + 1), ?_⟩
      have htake : c₂.reply.take (c₁.reply.length + 1) = c₁.reply ++ [none] :=
        List.take_of_length_le (by simp [hc₂])
      rw [List.append_cons, ← htake, ← hfrozen, List.take_append_drop]
    have htext : rest.flatMap nodeBytes = (s c₁.flags.closeAfterReply).map some := by
      have hcontent := hgrows.content
      rw [accepted, show c₂.flags.accepts = true from haccepts, if_pos rfl] at hcontent
      simpa [OutClient.content, hrest, hbuf, hc₂, nodeBytes] using hcontent
    have hbytes := hgrows.bytes
    rw [hrest] at hbytes
    rw [setDeferredMultiBulkLength_eq hrest]
    have hputs : Puts c₁
        { c₃ with
          reply := c₁.reply ++ glue (lineHeader star length) rest
          replyBytes := c₃.replyBytes + (lineHeader star length).length }
        ((glue (lineHeader star length) rest).flatMap nodeBytes) := by
      refine Puts.of_append _ hgrows.flags hgrows.sent hgrows.sentlen hbuf rfl ?_ hgrows.listed
      show c₃.replyBytes + _ = c₁.replyBytes + _
      rw [listBytes_glue]
      simp only [hc₂, listBytes_append] at hbytes
      simp only [listBytes, List.map_cons, List.map_nil, List.sum_cons, List.sum_nil,
        Option.getD_none, List.length_nil] at hbytes ⊢
      push_cast at hbytes ⊢
      linarith
    rw [flatMap_nodeBytes_glue, htext, ← List.map_append] at hputs
    rw [accepted, if_pos haccepts]
    exact hputs

/-- **Adding a reply adds its text**, at the end of everything that is in the buffers. -/
theorem OutReply.grows_add (r : OutReply) : ∀ c : OutClient,
    Grows c (r.add c) (accepted c.flags (r.text c.flags.closeAfterReply)) := by
  induction r with
  | object o => exact fun c => grows_addReply c o
  | sds s => exact fun c => grows_addReplySds c s
  | string s => exact fun c => grows_addReplyString c s
  | longLongWithPrefix ll pfx => exact fun c => grows_addReplyLongLongWithPrefix c ll pfx
  | longLong ll => exact fun c => grows_addReplyLongLong c ll
  | multiBulkLen length => exact fun c => grows_ite_header c length star
  | bulkLen o => exact fun c => grows_addReplyBulkLen c o
  | bulk o => exact fun c => grows_addReplyBulk c o
  | error s => exact fun c => grows_addReplyString_three c _ s crlf
  | status s => exact fun c => grows_addReplyString_three c _ s crlf
  | deferred body length ih => exact fun c => grows_deferred (s := fun b => body.text b) ih c length
  | seq r r' ih ih' =>
    intro c
    have hfirst := ih c
    have hsecond := ih' (r.add c)
    rw [hfirst.flags] at hsecond
    rw [OutReply.text, accepted_append]
    exact hfirst.trans hsecond

/-! ### Writing -/

namespace OutClient

/-- Every node has been filled in. -/
def Filled (c : OutClient) : Prop := none ∉ c.reply

/-- The bytes of the chunks. -/
def listText (reply : List (Option Sds)) : Sds := reply.flatMap fun s => s.getD []

/-- The bytes that are still to be sent. -/
def unsent (c : OutClient) : Sds := (c.buf ++ listText c.reply).drop c.sentlen

theorem content_of_filled {c : OutClient} (h : c.Filled) :
    c.content = (c.buf ++ listText c.reply).map some := by
  have hnodes : ∀ l : List (Option Sds), none ∉ l →
      l.flatMap nodeBytes = (listText l).map some := by
    intro l
    induction l with
    | nil => exact fun _ => rfl
    | cons o l ih =>
      intro hl
      obtain ⟨s, rfl⟩ := Option.ne_none_iff_exists'.mp fun h0 => hl (h0 ▸ List.mem_cons_self)
      rw [List.flatMap_cons, ih fun h0 => hl (List.mem_cons_of_mem _ h0)]
      simp [nodeBytes, listText]
  rw [content, hnodes _ h, List.map_append]

theorem filled_iff_content (c : OutClient) : c.Filled ↔ none ∉ c.content := by
  have hnode : ∀ o : Option Sds, none ∈ nodeBytes o ↔ o = none := by
    rintro (_ | s) <;> simp [nodeBytes]
  simp [Filled, content, hnode]

/-- Without anything in front that has been sent entirely, `sentlen` cuts what is in front. -/
theorem WF.sentlen_le {c : OutClient} (h : c.WF) : c.sentlen ≤ c.headLength := by
  rcases h.begun with h0 | hlt
  · exact h0 ▸ Nat.zero_le _
  · exact hlt.le

end OutClient

/-- `c'` is `c` after some of its bytes have been sent. -/
structure Sends (c c' : OutClient) : Prop where
  flags : c'.flags = c.flags
  pendingWrite : c'.pendingWrite = c.pendingWrite
  writeHandler : c'.writeHandler = c.writeHandler
  wf : c'.WF
  filled : c'.Filled
  stream : c'.sent ++ c'.unsent = c.sent ++ c.unsent
  more : c.sent.length ≤ c'.sent.length

theorem Sends.refl {c : OutClient} (hwf : c.WF) (hfilled : c.Filled) : Sends c c :=
  ⟨rfl, rfl, rfl, hwf, hfilled, rfl, le_rfl⟩

theorem Sends.trans {c c₁ c₂ : OutClient} (h : Sends c c₁) (h' : Sends c₁ c₂) : Sends c c₂ :=
  ⟨h'.flags.trans h.flags, h'.pendingWrite.trans h.pendingWrite,
    h'.writeHandler.trans h.writeHandler, h'.wf, h'.filled, h'.stream.trans h.stream,
    h.more.trans h'.more⟩

theorem sends_skipEmpty {c : OutClient} (hwf : c.WF) (hfilled : c.Filled) :
    Sends c c.skipEmpty := by
  rw [skipEmpty]
  split
  · next hbuf =>
    have hnil : c.buf = [] := List.length_eq_zero_iff.mp hbuf
    have htext : ∀ l : List (Option Sds), listText (l.dropWhile (· = some [])) = listText l ∧
        listBytes (l.dropWhile (· = some [])) = listBytes l := by
      intro l
      induction l with
      | nil => exact ⟨rfl, rfl⟩
      | cons o l ih =>
        rw [List.dropWhile_cons]
        split
        · next ho =>
          obtain rfl : o = some [] := by simpa using ho
          rw [ih.1, ih.2]
          simp [listText, listBytes]
        · exact ⟨rfl, rfl⟩
    refine ⟨rfl, rfl, rfl, ⟨hwf.room, ?_, ?_⟩, ?_, ?_, le_rfl⟩
    · rw [hwf.counted, (htext c.reply).2]
    · show c.sentlen = 0 ∨ c.sentlen < headLength { c with reply := _ }
      have hbegun := hwf.begun
      rw [headLength, if_pos hnil] at hbegun ⊢
      cases hreply : c.reply with
      | nil => simpa [hreply] using hbegun
      | cons o l =>
        rw [hreply] at hbegun
        by_cases ho : o = some []
        · subst ho
          exact .inl (by simpa using hbegun)
        · simpa [List.dropWhile_cons, ho] using hbegun
    · exact fun h => hfilled ((List.dropWhile_sublist _).subset h)
    · show c.sent ++ (c.buf ++ listText (c.reply.dropWhile _)).drop c.sentlen = _
      rw [(htext c.reply).1]
      rfl
  · exact Sends.refl hwf hfilled

/-- What `write` is called with is the beginning of what is to be sent. -/
theorem unsent_eq_front {c : OutClient} {s : Sds} (hwf : c.WF) (hfront : c.front = some s) :
    ∃ rest, c.unsent = s ++ rest := by
  have hle := hwf.sentlen_le
  rw [front] at hfront
  rw [headLength] at hle
  split at hfront
  · next hpos =>
    rw [if_neg (List.length_pos_iff.mp hpos)] at hle
    cases hfront
    exact ⟨listText c.reply, List.drop_append_of_le_length hle⟩
  · next hpos =>
    have hnil : c.buf = [] := List.length_eq_zero_iff.mp (by omega)
    rw [if_pos hnil] at hle
    split at hfront
    · cases hfront
      exact ⟨c.unsent, rfl⟩
    · cases hfront
    · next o rest hreply =>
      cases hfront
      rw [hreply] at hle
      refine ⟨listText rest, ?_⟩
      rw [unsent, hnil, hreply]
      exact List.drop_append_of_le_length hle

theorem sends_sentlen {c : OutClient} {s : Sds} {n : ℕ} (hwf : c.WF) (hfilled : c.Filled)
    (hfront : c.front = some s) (hn : n ≤ s.length) (hlt : c.sentlen + n < c.headLength) :
    Sends c { c with sentlen := c.sentlen + n, sent := c.sent ++ s.take n } := by
  obtain ⟨rest, hrest⟩ := unsent_eq_front hwf hfront
  refine ⟨rfl, rfl, rfl, ⟨hwf.room, hwf.counted, .inr hlt⟩, hfilled, ?_, by simp⟩
  have hdrop : unsent { c with sentlen := c.sentlen + n, sent := c.sent ++ s.take n } =
      c.unsent.drop n := (List.drop_drop ..).symm
  rw [hdrop, hrest, List.drop_append_of_le_length hn]
  simp only [List.append_assoc, List.append_cancel_left_eq]
  rw [← List.append_assoc, List.take_append_drop]

/-- **The socket takes some bytes**: they move from what is to be sent to what was sent, and the
assertion holds. -/
theorem sends_advance {c : OutClient} {s : Sds} {n : ℕ} (hwf : c.WF) (hfilled : c.Filled)
    (hfront : c.front = some s) (hpos : 0 < n) (hn : n ≤ s.length) :
    ∃ c', c.advance n = some c' ∧ Sends c c' ∧ c'.sent = c.sent ++ s.take n := by
  have hsends := sends_sentlen hwf hfilled hfront hn
  have hle := hwf.sentlen_le
  have hfront' := hfront
  rw [front] at hfront'
  rw [advance, hfront]
  rw [headLength] at hsends hle
  split at hfront'
  · next hbuf =>
    rw [if_neg (List.length_pos_iff.mp hbuf)] at hsends hle
    cases hfront'
    rw [List.length_drop] at hn
    rw [if_pos hbuf]
    simp only [Option.getD_some]
    by_cases hall : c.sentlen + n = c.buf.length
    · rw [if_pos hall]
      have htake : (c.buf.drop c.sentlen).take n = c.buf.drop c.sentlen :=
        List.take_of_length_le (by rw [List.length_drop]; omega)
      refine ⟨_, rfl, ⟨rfl, rfl, rfl, ⟨Nat.zero_le _, hwf.counted, .inl rfl⟩, hfilled, ?_, ?_⟩, rfl⟩
      · show (c.sent ++ _) ++ listText c.reply = c.sent ++ (c.buf ++ listText c.reply).drop _
        rw [htake, List.drop_append_of_le_length hle, List.append_assoc]
      · simp
    · rw [if_neg hall]
      exact ⟨_, rfl, hsends (by omega), rfl⟩
  · next hbuf =>
    have hnil : c.buf = [] := List.length_eq_zero_iff.mp (by omega)
    rw [if_pos hnil] at hsends hle
    rw [if_neg hbuf]
    split at hfront'
    · cases hfront'
      exact absurd hn (by rw [List.length_nil]; omega)
    · cases hfront'
    · next o rest hreply =>
      cases hfront'
      rw [hreply] at hsends hle
      have hle' : c.sentlen ≤ o.length := hle
      rw [List.length_drop] at hn
      simp only [hreply, Option.getD_some]
      by_cases hall : c.sentlen + n = o.length
      · -- the chunk is gone, and its bytes are taken off the counter
        have hcounted : c.replyBytes - o.length = listBytes rest := by
          rw [hwf.counted, hreply]
          simp [listBytes]
        have hassert : ¬ (rest.length = 0 ∧ c.replyBytes - o.length ≠ 0) := by
          rintro ⟨hrest, hne⟩
          rw [hcounted, List.length_eq_zero_iff.mp hrest] at hne
          exact hne rfl
        rw [if_pos hall, if_neg hassert]
        have htake : (o.drop c.sentlen).take n = o.drop c.sentlen :=
          List.take_of_length_le (by rw [List.length_drop]; omega)
        refine ⟨_, rfl, ⟨rfl, rfl, rfl, ⟨hwf.room, hcounted, .inl rfl⟩, fun h => hfilled ?_, ?_,
          ?_⟩, rfl⟩
        · rw [hreply]
          exact List.mem_cons_of_mem _ h
        · show (c.sent ++ _) ++ (c.buf ++ listText rest) =
            c.sent ++ (c.buf ++ listText c.reply).drop c.sentlen
          rw [htake, hnil, hreply]
          show _ = c.sent ++ (o ++ listText rest).drop c.sentlen
          rw [List.drop_append_of_le_length hle', List.append_assoc]
          rfl
        · simp
      · rw [if_neg hall]
        exact ⟨_, rfl, hsends (show c.sentlen + n < o.length by omega), rfl⟩

/-- After the empty chunks have been dropped, there is a byte in front if there is anything. -/
theorem front_skipEmpty {c : OutClient} (hwf : c.WF) (hfilled : c.Filled)
    (hpending : c.skipEmpty.clientHasPendingReplies = true) :
    ∃ s, c.skipEmpty.front = some s ∧ 0 < s.length := by
  have hsends := sends_skipEmpty hwf hfilled
  have hbegun := hsends.wf.begun
  by_cases hbuf : c.buf.length = 0
  · have hnil : c.buf = [] := List.length_eq_zero_iff.mp hbuf
    have hskip : c.skipEmpty = { c with reply := c.reply.dropWhile (· = some []) } := if_pos hbuf
    cases hreply : c.reply.dropWhile (· = some []) with
    | nil => simp [hskip, clientHasPendingReplies, hreply, hnil] at hpending
    | cons o rest =>
      have hne : o ≠ some [] := by
        have hhead := List.head?_dropWhile_not (· = some []) c.reply
        rw [hreply] at hhead
        simpa using hhead
      have hmem : o ∈ c.reply := (List.dropWhile_sublist _).subset (hreply ▸ List.mem_cons_self)
      obtain ⟨s, rfl⟩ := Option.ne_none_iff_exists'.mp fun h0 => hfilled (h0 ▸ hmem)
      have hpos : 0 < s.length := List.length_pos_iff.mpr fun h0 => hne (h0 ▸ rfl)
      rw [hskip] at hbegun ⊢
      refine ⟨s.drop c.sentlen, ?_, ?_⟩
      · simp [front, hnil, hreply]
      · have hbegun' : c.sentlen = 0 ∨ c.sentlen < s.length := by
          simpa [headLength, hnil, hreply] using hbegun
        rw [List.length_drop]
        omega
  · have hskip : c.skipEmpty = c := if_neg hbuf
    rw [hskip] at hbegun ⊢
    rw [headLength, if_neg (mt List.length_eq_zero_iff.mpr hbuf)] at hbegun
    refine ⟨c.buf.drop c.sentlen, if_pos (by omega), ?_⟩
    rw [List.length_drop]
    omega

theorem nextChunk_spec {c : OutClient} (hwf : c.WF) (hfilled : c.Filled) :
    ∃ c' s, c.nextChunk = some (c', s) ∧ Sends c c' ∧
      (s = none → c'.clientHasPendingReplies = false) ∧
      ∀ s', s = some s' → c'.front = some s' ∧ 0 < s'.length := by
  have hskip := sends_skipEmpty hwf hfilled
  rw [nextChunk]
  by_cases hpending : c.skipEmpty.clientHasPendingReplies = true
  · obtain ⟨s, hfront, hpos⟩ := front_skipEmpty hwf hfilled hpending
    refine ⟨c.skipEmpty, some s, by simp [hpending, hfront], hskip, by rintro ⟨⟩, ?_⟩
    rintro s' ⟨⟩
    exact ⟨hfront, hpos⟩
  · refine ⟨c.skipEmpty, none, by simp [hpending], hskip, fun _ => by simpa using hpending, ?_⟩
    rintro s' ⟨⟩

/-- The socket takes at least a byte of what it is first offered. -/
def TakesByte (ws : List WriteResult) : Prop := ∃ n mem ws', 0 < n ∧ ws = .wrote n mem :: ws'

theorem unsent_of_not_pending {c : OutClient} (h : c.clientHasPendingReplies = false) :
    c.unsent = [] := by
  obtain ⟨hbuf, hreply⟩ := (clientHasPendingReplies_eq_false_iff c).mp h
  rw [unsent, hbuf, hreply]
  exact List.drop_nil

/-- **The loop moves bytes to the socket and does not fail.** If the socket takes anything, it gets
a byte of what there is. -/
theorem writeLoop_spec (ws : List WriteResult) : ∀ (c : OutClient) (tot : ℕ), c.WF → c.Filled →
    ∃ c' e, c.writeLoop tot ws = some (c', e) ∧ Sends c c' ∧
      (TakesByte ws → c.unsent ≠ [] → c.sent.length < c'.sent.length) := by
  induction ws with
  | nil =>
    intro c tot hwf hfilled
    obtain ⟨c', s, hnext, hsends, -⟩ := nextChunk_spec hwf hfilled
    refine ⟨c', false, by rw [writeLoop, hnext]; rfl, hsends, ?_⟩
    rintro ⟨n, mem, ws', -, ⟨⟩⟩
  | cons w ws ih =>
    intro c tot hwf hfilled
    obtain ⟨c₁, s, hnext, hsends, hnone, hsome⟩ := nextChunk_spec hwf hfilled
    unfold writeLoop
    rw [hnext]
    cases s with
    | none =>
      refine ⟨c₁, false, rfl, hsends, fun _ hne => ?_⟩
      -- nothing is left, so it has been sent
      have hlen := congrArg List.length hsends.stream
      rw [unsent_of_not_pending (hnone rfl)] at hlen
      simp only [List.length_append, List.length_nil] at hlen
      have hpos := List.length_pos_iff.mpr hne
      omega
    | some s =>
      obtain ⟨hfront, hpos⟩ := hsome s rfl
      cases w with
      | again => exact ⟨c₁, false, rfl, hsends, by rintro ⟨n, mem, ws', -, ⟨⟩⟩⟩
      | error => exact ⟨c₁, true, rfl, hsends, by rintro ⟨n, mem, ws', -, ⟨⟩⟩⟩
      | wrote n mem =>
        simp only
        by_cases hzero : min n s.length = 0
        · rw [if_pos hzero]
          refine ⟨c₁, false, rfl, hsends, ?_⟩
          rintro ⟨n', mem', ws', hn', heq⟩
          obtain ⟨⟨rfl, -⟩, -⟩ := by simpa using heq
          omega
        · rw [if_neg hzero]
          obtain ⟨c₂, hadvance, hsends₂, hsent⟩ := sends_advance hsends.wf hsends.filled hfront
            (Nat.pos_of_ne_zero hzero) (Nat.min_le_right n s.length)
          have hmore : c.sent.length < c₂.sent.length := by
            have hlen := hsends.more
            rw [hsent, List.length_append, List.length_take]
            omega
          simp only [hadvance]
          split
          · exact ⟨c₂, false, rfl, hsends.trans hsends₂, fun _ _ => hmore⟩
          · obtain ⟨c₃, e, hloop, hsends₃, -⟩ := ih c₂ (tot + min n s.length) hsends₂.wf
              hsends₂.filled
            exact ⟨c₃, e, hloop, (hsends.trans hsends₂).trans hsends₃,
              fun _ _ => hmore.trans_le hsends₃.more⟩

/-- What serving a client leaves of it: nothing but what was sent, or the client with bytes moved
and, if there is more to send, a handler as `handler` says. -/
inductive Served (c : OutClient) (ws : List WriteResult) (handler : Bool) : WriteOutcome → Prop
  | freed {sent : Sds} (hsent : sent <+: c.sent ++ c.unsent) : Served c ws handler (.freed sent)
  | alive {c' : OutClient} (hflags : c'.flags = c.flags)
      (hhandler : c'.clientHasPendingReplies = true → c'.writeHandler = handler)
      (hwf : c'.WF) (hfilled : c'.Filled) (hstream : c'.sent ++ c'.unsent = c.sent ++ c.unsent)
      (hle : c.sent.length ≤ c'.sent.length)
      (hmore : TakesByte ws → c.unsent ≠ [] → c.sent.length < c'.sent.length) :
      Served c ws handler (.alive c')

theorem served_writeToClient {c : OutClient} (hwf : c.WF) (hfilled : c.Filled) (installed : Bool)
    (ws : List WriteResult) : Served c ws c.writeHandler (c.writeToClient installed ws) := by
  obtain ⟨c', e, hloop, hsends, hmore⟩ := writeLoop_spec ws c 0 hwf hfilled
  have hprefix : c'.sent <+: c.sent ++ c.unsent := ⟨c'.unsent, hsends.stream⟩
  rw [writeToClient, hloop]
  cases e with
  | true => exact .freed hprefix
  | false =>
    simp only
    by_cases hpending : c'.clientHasPendingReplies = true
    · rw [hpending]
      exact .alive hsends.flags (fun _ => hsends.writeHandler) hsends.wf hsends.filled
        hsends.stream hsends.more hmore
    · rw [Bool.not_eq_true] at hpending
      have hunsent := unsent_of_not_pending hpending
      obtain ⟨hbuf, hreply⟩ := (clientHasPendingReplies_eq_false_iff c').mp hpending
      rw [hpending]
      simp only [Bool.not_false, if_true]
      split
      · exact .freed hprefix
      · refine .alive hsends.flags (fun h => ?_)
          ⟨hsends.wf.room, hsends.wf.counted, .inl rfl⟩ hsends.filled ?_ hsends.more hmore
        · have h' : c'.clientHasPendingReplies = true := h
          rw [hpending] at h'
          cases h'
        · have hstream := hsends.stream
          rw [hunsent] at hstream
          rw [← hstream, unsent, hbuf, hreply]
          rfl

theorem served_handlePendingWrites {c : OutClient} (hwf : c.WF) (hfilled : c.Filled)
    (ws : List WriteResult) (installed : Bool) :
    Served c ws true (c.handlePendingWrites ws installed) := by
  have hserved := served_writeToClient (c := { c with pendingWrite := false })
    ⟨hwf.room, hwf.counted, hwf.begun⟩ hfilled false ws
  rw [handlePendingWrites]
  generalize writeToClient _ false ws = o at hserved ⊢
  cases hserved with
  | freed hsent => exact .freed hsent
  | @alive c' hflags hhandler hwf' hfilled' hstream hle hmore =>
    simp only
    split
    · split
      · exact .alive hflags (fun _ => rfl) ⟨hwf'.room, hwf'.counted, hwf'.begun⟩ hfilled' hstream
          hle hmore
      · exact .freed ⟨c'.unsent, hstream⟩
    · next hpending =>
      exact .alive hflags (fun h => absurd h hpending) hwf' hfilled' hstream hle hmore

/-! ### Whole connections -/

namespace OutConn

/-- The client is gone and got a part of what was added, or it has been sent a part and has the
rest in its buffers. -/
def Sound (s : OutConn) : Prop :=
  match s.client with
  | .crashed => False
  | .freed sent => sent <+: s.added
  | .alive c => c.WF ∧ c.Filled ∧ c.sent ++ c.unsent = s.added

theorem sound_accept (f : ClientFlags) : (accept f).Sound :=
  ⟨wf_create f, List.not_mem_nil, rfl⟩

/-- A client that has something to send will be served. -/
def Watched (s : OutConn) : Prop :=
  match s.client with
  | .alive c => c.flags.Live ∧ c.Noted
  | _ => True

theorem sound_of_served {s : OutConn} {c : OutClient} {o : WriteOutcome} {ws : List WriteResult}
    {handler : Bool} (hserved : Served c ws handler o) (hstream : c.sent ++ c.unsent = s.added) :
    Sound { s with client := o } := by
  cases hserved with
  | freed hsent => exact hstream ▸ hsent
  | alive _ _ hwf hfilled hstream' _ _ => exact ⟨hwf, hfilled, hstream'.trans hstream⟩

theorem watched_of_served {s : OutConn} {c : OutClient} {o : WriteOutcome} {ws : List WriteResult}
    (hserved : Served c ws true o) (hlive : c.flags.Live) : Watched { s with client := o } := by
  cases hserved with
  | freed _ => trivial
  | alive hflags hhandler _ _ _ _ _ => exact ⟨hflags ▸ hlive, fun h => .inr (hhandler h)⟩

theorem stream_of_grows {c c' : OutClient} {t : Sds} (h : Grows c c' (t.map some)) (hwf : c.WF)
    (hfilled : c.Filled) :
    c'.Filled ∧ c'.sent ++ c'.unsent = c.sent ++ c.unsent ++ t := by
  have hcontent := h.content
  rw [content_of_filled hfilled, ← List.map_append] at hcontent
  have hfilled' : c'.Filled := by
    rw [filled_iff_content, hcontent]
    simp
  refine ⟨hfilled', ?_⟩
  rw [content_of_filled hfilled'] at hcontent
  have htext := List.map_injective_iff.mpr (Option.some_injective _) hcontent
  have hle : c.sentlen ≤ (c.buf ++ listText c.reply).length := by
    refine hwf.sentlen_le.trans ?_
    rw [headLength, List.length_append]
    split
    · cases c.reply with
      | nil => exact Nat.zero_le _
      | cons o l =>
        rw [listText, List.flatMap_cons, List.length_append]
        exact (Nat.le_add_right _ _).trans (Nat.le_add_left _ _)
    · exact Nat.le_add_right _ _
  rw [h.sent, unsent, htext, h.sentlen, List.drop_append_of_le_length hle, unsent,
    List.append_assoc]

theorem accepted_eq_map (f : ClientFlags) (s : Sds) :
    accepted f s = (if f.accepts then s else []).map some := by
  rw [accepted]
  split_ifs <;> rfl

theorem sound_step {s : OutConn} (hs : s.Sound) (a : OutAct) : (s.step a).Sound := by
  obtain ⟨client, added⟩ := s
  cases client with
  | crashed => exact hs.elim
  | freed sent => exact hs
  | alive c =>
    obtain ⟨hwf, hfilled, hstream⟩ := hs
    have hstream : c.sent ++ c.unsent = added := hstream
    cases a with
    | reply r =>
      have hgrows := r.grows_add c
      rw [accepted_eq_map] at hgrows
      obtain ⟨hfilled', hstream'⟩ := stream_of_grows hgrows hwf hfilled
      refine ⟨(r.grows_add c).wf hwf, hfilled', hstream'.trans ?_⟩
      rw [hstream]
      show _ = if c.flags.accepts then added ++ _ else added
      split_ifs
      · rfl
      · exact List.append_nil _
    | setFlags f => exact ⟨⟨hwf.room, hwf.counted, hwf.begun⟩, hfilled, hstream⟩
    | beforeSleep ws installed =>
      show Sound (if c.pendingWrite then _ else _)
      split
      · exact sound_of_served (served_handlePendingWrites hwf hfilled ws installed) hstream
      · exact ⟨hwf, hfilled, hstream⟩
    | writable ws =>
      show Sound (if c.writeHandler then _ else _)
      split
      · exact sound_of_served (served_writeToClient hwf hfilled true ws) hstream
      · exact ⟨hwf, hfilled, hstream⟩

theorem sound_run {s : OutConn} (hs : s.Sound) (as : List OutAct) : (s.run as).Sound := by
  induction as generalizing s with
  | nil => exact hs
  | cons a as ih => exact ih (sound_step hs a)

end OutConn

/-- The flags stay those of a client that can be sent something. -/
def OutAct.KeepsLive : OutAct → Prop
  | .setFlags f => f.Live
  | _ => True

namespace OutConn

theorem watched_step {s : OutConn} (hs : s.Sound) (hw : s.Watched) {a : OutAct}
    (ha : a.KeepsLive) : (s.step a).Watched := by
  obtain ⟨client, added⟩ := s
  cases client with
  | crashed => exact hs.elim
  | freed sent => trivial
  | alive c =>
    obtain ⟨hwf, hfilled, -⟩ := hs
    obtain ⟨hlive, hnoted⟩ := hw
    have hlive : c.flags.Live := hlive
    cases a with
    | reply r => exact ⟨(r.grows_add c).flags ▸ hlive, (r.grows_add c).noted hlive hnoted⟩
    | setFlags f => exact ⟨ha, hnoted⟩
    | beforeSleep ws installed =>
      show Watched (if c.pendingWrite then _ else _)
      split
      · exact watched_of_served (served_handlePendingWrites hwf hfilled ws installed) hlive
      · exact ⟨hlive, hnoted⟩
    | writable ws =>
      show Watched (if c.writeHandler then _ else _)
      split
      · next hhandler =>
        have hserved := served_writeToClient hwf hfilled true ws
        rw [hhandler] at hserved
        exact watched_of_served hserved hlive
      · exact ⟨hlive, hnoted⟩

theorem watched_run {s : OutConn} (hs : s.Sound) (hw : s.Watched) {as : List OutAct}
    (has : ∀ a ∈ as, a.KeepsLive) : (s.run as).Watched := by
  induction as generalizing s with
  | nil => exact hw
  | cons a as ih =>
    exact ih (sound_step hs a) (watched_step hs hw (has a List.mem_cons_self))
      fun b hb => has b (List.mem_cons_of_mem a hb)

/-- The number of bytes that are still to be sent. -/
def left (s : OutConn) : ℕ :=
  match s.client with
  | .alive c => c.unsent.length
  | _ => 0

theorem left_of_served {s : OutConn} {c : OutClient} {o : WriteOutcome} {ws : List WriteResult}
    {handler : Bool} (hserved : Served c ws handler o) :
    left { s with client := o } ≤ c.unsent.length ∧
      (TakesByte ws → c.unsent ≠ [] → left { s with client := o } < c.unsent.length) := by
  cases hserved with
  | freed _ => exact ⟨Nat.zero_le _, fun _ hne => List.length_pos_iff.mpr hne⟩
  | @alive c' _ _ _ _ hstream hle hmore =>
    have hlen := congrArg List.length hstream
    rw [List.length_append, List.length_append] at hlen
    refine ⟨?_, fun htakes hne => ?_⟩
    · show c'.unsent.length ≤ _
      omega
    · have hlt := hmore htakes hne
      show c'.unsent.length < _
      omega

theorem left_beforeSleep {s : OutConn} (hs : s.Sound) (ws : List WriteResult) (installed : Bool) :
    left (s.step (.beforeSleep ws installed)) ≤ left s := by
  obtain ⟨client, added⟩ := s
  cases client with
  | crashed => exact le_rfl
  | freed sent => exact le_rfl
  | alive c =>
    show left (if c.pendingWrite then _ else _) ≤ _
    split
    · exact (left_of_served (served_handlePendingWrites hs.1 hs.2.1 ws installed)).1
    · exact le_rfl

theorem left_writable {s : OutConn} (hs : s.Sound) (ws : List WriteResult) :
    left (s.step (.writable ws)) ≤ left s := by
  obtain ⟨client, added⟩ := s
  cases client with
  | crashed => exact le_rfl
  | freed sent => exact le_rfl
  | alive c =>
    show left (if c.writeHandler then _ else _) ≤ _
    split
    · exact (left_of_served (served_writeToClient hs.1 hs.2.1 true ws)).1
    · exact le_rfl

/-- One turn of the event loop: it serves the client before it waits, and when the socket is
writable. -/
def turn (ws : List WriteResult) : List OutAct := [.beforeSleep ws true, .writable ws]

/-- **A turn in which the socket takes something gets a byte out.** -/
theorem left_turn {s : OutConn} (hs : s.Sound) (hw : s.Watched) {ws : List WriteResult}
    (htakes : TakesByte ws) : left (s.run (turn ws)) ≤ left s - 1 := by
  obtain ⟨client, added⟩ := s
  cases client with
  | crashed => exact Nat.zero_le _
  | freed sent => exact Nat.zero_le _
  | alive c =>
    obtain ⟨hwf, hfilled, hstream⟩ := hs
    set s : OutConn := ⟨.alive c, added⟩ with hsdef
    have hs : s.Sound := ⟨hwf, hfilled, hstream⟩
    have hleft : left s = c.unsent.length := rfl
    show left ((s.step (.beforeSleep ws true)).step (.writable ws)) ≤ _
    have hsecond := left_writable (sound_step hs (.beforeSleep ws true)) ws
    have hfirst := left_beforeSleep hs ws true
    by_cases hnil : c.unsent = []
    · rw [hnil, List.length_nil] at hleft
      omega
    · have hpending : c.clientHasPendingReplies = true := by
        by_contra h
        exact hnil (unsent_of_not_pending (Bool.not_eq_true _ ▸ h))
      rcases Bool.eq_false_or_eq_true c.pendingWrite with hlist | hlist
      · -- it is served before the wait
        have hstep : s.step (.beforeSleep ws true) =
            { s with client := c.handlePendingWrites ws true } := if_pos hlist
        have hlt := (left_of_served (s := s)
          (served_handlePendingWrites hwf hfilled ws true)).2 htakes hnil
        rw [← hstep] at hlt
        omega
      · -- it has its handler
        have hhandler : c.writeHandler = true :=
          (hw.2 hpending).resolve_left (by simp [hlist])
        have hstep : s.step (.beforeSleep ws true) = s := if_neg (by simp [hlist])
        have hstep' : s.step (.writable ws) = { s with client := c.sendReplyToClient ws } :=
          if_pos hhandler
        have hlt := (left_of_served (s := s)
          (served_writeToClient hwf hfilled true ws)).2 htakes hnil
        rw [hstep, hstep']
        show left { s with client := c.writeToClient true ws } ≤ _
        omega

theorem run_append (s : OutConn) (as bs : List OutAct) : s.run (as ++ bs) = (s.run as).run bs :=
  List.foldl_append ..

theorem left_turns {s : OutConn} (hs : s.Sound) (hw : s.Watched) {wss : List (List WriteResult)}
    (hwss : ∀ ws ∈ wss, TakesByte ws) : left (s.run (wss.flatMap turn)) ≤ left s - wss.length := by
  induction wss generalizing s with
  | nil => exact le_rfl
  | cons ws wss ih =>
    have hturn := left_turn hs hw (hwss ws List.mem_cons_self)
    have hwatched : (s.run (turn ws)).Watched :=
      watched_run hs hw (by simp [turn, OutAct.KeepsLive])
    have hrest := ih (sound_run hs (turn ws)) hwatched
      fun ws' hws' => hwss ws' (List.mem_cons_of_mem ws hws')
    rw [List.flatMap_cons, run_append, List.length_cons]
    omega

theorem added_turns (s : OutConn) (wss : List (List WriteResult)) :
    (s.run (wss.flatMap turn)).added = s.added := by
  have hbefore : ∀ (s : OutConn) ws, (s.step (.beforeSleep ws true)).added = s.added := by
    rintro ⟨_ | _ | c, added⟩ ws
    · rfl
    · rfl
    · show OutConn.added (if c.pendingWrite then _ else _) = added
      split <;> rfl
  have hwritable : ∀ (s : OutConn) ws, (s.step (.writable ws)).added = s.added := by
    rintro ⟨_ | _ | c, added⟩ ws
    · rfl
    · rfl
    · show OutConn.added (if c.writeHandler then _ else _) = added
      split <;> rfl
  induction wss generalizing s with
  | nil => rfl
  | cons ws wss ih =>
    rw [List.flatMap_cons, run_append, ih]
    exact (hwritable _ ws).trans (hbefore s ws)

end OutConn

/-- **Output is sent once and in order.** Whatever is added to a client, whatever its flags do and
however the socket behaves, no assertion of `writeToClient` fails, and what was sent followed by
what is in the buffers is what was added. A client that is dropped got the beginning of it. -/
theorem outConn_fifo (f : ClientFlags) (as : List OutAct) :
    match ((OutConn.accept f).run as).client with
    | .crashed => False
    | .freed sent => sent <+: ((OutConn.accept f).run as).added
    | .alive c => c.sent ++ c.unsent = ((OutConn.accept f).run as).added ∧
        c.buf.length ≤ protoReplyChunkBytes ∧ c.replyBytes = listBytes c.reply := by
  have hsound := OutConn.sound_run (OutConn.sound_accept f) as
  rw [OutConn.Sound] at hsound
  split
  · next h => rwa [h] at hsound
  · next h => rwa [h] at hsound
  · next c h =>
    rw [h] at hsound
    obtain ⟨hwf, -, hstream⟩ := hsound
    exact ⟨hstream, hwf.room, hwf.counted⟩

/-- **No client is forgotten.** A client that can be sent something and has something to send is in
the list that is served before the next wait, or waits for its socket with a handler. -/
theorem outConn_noted (f : ClientFlags) (hf : f.Live) (as : List OutAct)
    (has : ∀ a ∈ as, a.KeepsLive) (c : OutClient)
    (hc : ((OutConn.accept f).run as).client = .alive c)
    (hpending : c.clientHasPendingReplies = true) :
    c.pendingWrite = true ∨ c.writeHandler = true := by
  have hfresh : (OutConn.accept f).Watched := ⟨hf, by rintro ⟨⟩⟩
  have hwatched := OutConn.watched_run (OutConn.sound_accept f) hfresh has
  rw [OutConn.Watched, hc] at hwatched
  exact hwatched.2 hpending

/-- An ordinary client. -/
def plainFlags : ClientFlags :=
  ⟨5, false, false, false, false, false, false, false, false, .none, false⟩

/-- A reply of which the socket takes three bytes before the first wait. -/
def halfSent : List OutAct :=
  [.reply (.bulk (.raw (bytes [97, 98]))), .beforeSleep [.wrote 3 false, .again] true]

theorem outConn_noted_halfSent :
    ∃ c, ((OutConn.accept plainFlags).run halfSent).client = .alive c ∧
      c.sent = bytes [36, 50, 13] ∧ (c.pendingWrite = true ∨ c.writeHandler = true) :=
  ⟨_, rfl, by decide, outConn_noted plainFlags (by decide) halfSent
    (by simp [halfSent, OutAct.KeepsLive]) _ rfl (by decide)⟩

/-- **What is added gets out.** The client is one that can be sent something and stays so: no Lua or
module client, no replica that is not online. After any run of such a client, as many turns of the
event loop as there are bytes left, in each of which the socket takes something, have sent
everything that was added, unless the client was dropped. -/
theorem outConn_drained (f : ClientFlags) (hf : f.Live) (as : List OutAct)
    (has : ∀ a ∈ as, a.KeepsLive) (wss : List (List WriteResult)) (hwss : ∀ ws ∈ wss, TakesByte ws)
    (hlen : ((OutConn.accept f).run as).left ≤ wss.length) :
    match (((OutConn.accept f).run as).run (wss.flatMap OutConn.turn)).client with
    | .crashed => False
    | .freed _ => True
    | .alive c => c.sent = ((OutConn.accept f).run as).added := by
  have hfresh : (OutConn.accept f).Watched := ⟨hf, by rintro ⟨⟩⟩
  have hsound := OutConn.sound_run (OutConn.sound_accept f) as
  have hwatched := OutConn.watched_run (OutConn.sound_accept f) hfresh has
  generalize (OutConn.accept f).run as = s at hsound hwatched hlen
  have hleft := OutConn.left_turns hsound hwatched hwss
  have hend := OutConn.sound_run hsound (wss.flatMap OutConn.turn)
  have hadded := OutConn.added_turns s wss
  rw [OutConn.Sound] at hend
  rw [OutConn.left] at hleft
  split
  · next h => rwa [h] at hend
  · trivial
  · next c h =>
    rw [h] at hend hleft
    have hnil : c.unsent = [] := List.length_eq_zero_iff.mp (by simp only at hleft; omega)
    obtain ⟨-, -, hstream⟩ := hend
    rw [hnil, List.append_nil, hadded] at hstream
    exact hstream

theorem outConn_drained_halfSent :
    ∃ c, (((OutConn.accept plainFlags).run halfSent).run
        ((List.replicate 5 [.wrote 1 false]).flatMap OutConn.turn)).client = .alive c ∧
      c.sent = bytes [36, 50, 13, 10, 97, 98, 13, 10] := by
  have hsent := outConn_drained plainFlags (by decide) halfSent
    (by simp [halfSent, OutAct.KeepsLive]) (List.replicate 5 [.wrote 1 false])
    (fun ws hws => ⟨1, false, [], Nat.one_pos, List.eq_of_mem_replicate hws⟩) (by decide)
  exact ⟨_, rfl, hsent.trans (by decide)⟩

end RemoveWin
