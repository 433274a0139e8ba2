import FilterLex.Proofs.IllFormedBytes

/-!
# Documents are read in chunks

A chunk may end within a character, or between the two halves of a line end. What it leaves over
is put in front of the next chunk, so a text comes out the same however it is divided.

- `toLineFeeds_heldReturn`: line ends across a border.
- `decodeFrom_front`: the front of an encoded text, and what is left over of it.
- `documentReads_bytesOf`: encoded text in any chunks.
- `ofDocument_utf8`: a document in UTF-8 is the feed of its text.
- `ofDocument_malformed`, `ofDocument_truncated`: a document of one chunk that is not UTF-8.
-/

namespace FilterLex

/-! ## Line ends -/

namespace Text

variable {front back : List Char}

theorem toLineFeeds_append (h : front.getLast? = some '\r' → back.head? ≠ some '\n') :
    toLineFeeds (front ++ back) = toLineFeeds front ++ toLineFeeds back := by
  fun_induction toLineFeeds front with
  | case1 => rfl
  | case2 rest ih =>
      have hrest : rest.getLast? = some '\r' → back.head? ≠ some '\n' := by
        intro hlast
        refine h ?_
        rw [List.getLast?_cons, List.getLast?_cons, hlast]
        rfl
      rw [List.cons_append, List.cons_append, toLineFeeds, ih hrest, List.cons_append]
  | case3 c rest hpair ih =>
      have hrest : rest.getLast? = some '\r' → back.head? ≠ some '\n' := by
        intro hlast
        refine h ?_
        rw [List.getLast?_cons, hlast]
        rfl
      have hborder : ∀ later, c = '\r' → rest ++ back ≠ '\n' :: later := by
        rintro later rfl heq
        cases rest with
        | nil => exact h rfl (by rw [← List.nil_append back, heq]; rfl)
        | cons d rest =>
            rw [List.cons_append, List.cons.injEq] at heq
            exact hpair rest rfl (by rw [heq.1])
      rw [List.cons_append, toLineFeeds, ih hrest, List.cons_append]
      exact hborder

/-- Nothing is lost at a border, and no line end is made two. -/
theorem toLineFeeds_heldReturn (front back : List Char) :
    toLineFeeds (withoutHeldReturn front) ++ toLineFeeds (heldReturn front ++ back) =
      toLineFeeds (front ++ back) := by
  unfold withoutHeldReturn heldReturn
  split
  · next hlast =>
      obtain ⟨init, rfl⟩ := List.getLast?_eq_some_iff.mp hlast
      rw [List.dropLast_concat, List.append_assoc]
      refine (toLineFeeds_append ?_).symm
      intro _ hhead
      cases hhead
  · next hlast => rw [List.nil_append, toLineFeeds_append (fun h => absurd h hlast)]

end Text

/-! ## Characters -/

namespace Text.Utf8

variable {front back : List UInt8} {cs : List Char}

theorem length_bytesOf (cs : List Char) : (bytesOf cs).length = encodedSize cs := rfl

/-- **The front of an encoded text is decoded** as far as its characters go. The bytes behind
them are the beginning of the next one. -/
theorem decodeFrom_front (start : Nat) (h : front ++ back = bytesOf cs) :
    ∃ before later, cs = before ++ later ∧
      front.drop (encodedSize before) ++ back = bytesOf later ∧
      (decodeFrom start none front = .text before ∨
        ∃ e, decodeFrom start none front = .truncated before e) := by
  induction cs generalizing start front with
  | nil =>
      obtain ⟨rfl, rfl⟩ := List.append_eq_nil_iff.mp h
      exact ⟨[], [], rfl, rfl, Or.inl rfl⟩
  | cons c cs ih =>
      rw [bytesOf_cons] at h
      by_cases hlength : (String.utf8EncodeChar c).length ≤ front.length
      · obtain ⟨rest, rfl⟩ := List.prefix_of_prefix_length_le
          (h ▸ List.prefix_append _ _) (List.prefix_append front back) hlength
        rw [List.append_assoc, List.append_cancel_left_eq] at h
        obtain ⟨before, later, rfl, hlater, hdecode⟩ :=
          ih (start + (String.utf8EncodeChar c).length) h
        refine ⟨c :: before, later, rfl, ?_, ?_⟩
        · rw [← length_bytesOf, bytesOf_cons, List.length_append, List.drop_length_add_append]
          rwa [length_bytesOf]
        · rw [decodeFrom_encodeChar]
          rcases hdecode with hdecode | ⟨e, hdecode⟩
          · exact Or.inl (by rw [hdecode]; rfl)
          · exact Or.inr ⟨e, by rw [hdecode]; rfl⟩
      · obtain ⟨rest, hrest⟩ := List.prefix_of_prefix_length_le
          (List.prefix_append front back) (h ▸ List.prefix_append _ _)
          (Nat.le_of_lt (Nat.lt_of_not_le hlength))
        refine ⟨[], c :: cs, rfl, by rw [bytesOf_cons]; exact h, ?_⟩
        cases front with
        | nil => exact Or.inl rfl
        | cons b part =>
            refine Or.inr
              ⟨_, decodeFrom_incomplete ⟨List.cons_ne_nil _ _, c, rest, ?_, hrest.symm⟩ _⟩
            rintro rfl
            rw [List.append_nil] at hrest
            exact hlength (Nat.le_of_eq (by rw [hrest]))

/-- What is held back does not depend on the text in front of it. -/
theorem decode_drop_of_truncated {bytes : List UInt8} {e : DecodeError}
    (h : decode bytes = .truncated cs e) :
    decode (bytes.drop (encodedSize cs)) = .truncated [] e := by
  have hsays : Says 0 bytes (decode bytes) := decodeFrom_says 0 none bytes [] rfl
  rw [h] at hsays
  rw [← length_bytesOf]
  rcases hsays with _ | _ | ⟨cs, hpart⟩ | ⟨cs, hrange⟩
  · rw [List.drop_left]
    exact decode_cutOff [] hpart
  · rw [List.drop_left]
    exact decode_surrogate [] hrange

end Text.Utf8

/-! ## Chunks -/

namespace Feed

open Text Text.Utf8

theorem flatten_takeChunks (n : Nat) (bytes : List UInt8) :
    (takeChunks n bytes).flatten = bytes.take (n * chunkSize) := by
  induction n generalizing bytes with
  | zero => rw [takeChunks, Nat.zero_mul, List.take_zero, List.flatten_nil]
  | succ n ih =>
      rw [takeChunks, List.flatten_cons, ih, Nat.succ_mul, Nat.add_comm, List.take_add]

theorem flatten_chunks (bytes : List UInt8) : (chunks bytes).flatten = bytes := by
  unfold chunks
  rw [flatten_takeChunks, List.take_of_length_le]
  unfold chunkSize
  omega

theorem chunks_of_length_le {bytes : List UInt8} (h : bytes ≠ [])
    (hsize : bytes.length ≤ chunkSize) : chunks bytes = [bytes] := by
  have hpos := List.length_pos_iff.mpr h
  have hone : (bytes.length + chunkSize - 1) / chunkSize = 1 := by
    unfold chunkSize at hsize ⊢
    omega
  unfold chunks
  rw [hone, takeChunks, takeChunks, List.take_of_length_le hsize]

/-! ## Documents -/

/-- **Encoded text is delivered,** whatever the chunks and whatever is left over in front of
them. -/
theorem documentReads_bytesOf {held : List UInt8} {blocks : List (List UInt8)} {cs : List Char}
    (h : held ++ blocks.flatten = bytesOf cs) (waiting : List Char) :
    documentReads held waiting blocks = (textReads (waiting ++ cs), .ended) := by
  induction blocks generalizing held waiting cs with
  | nil =>
      rw [List.flatten_nil, List.append_nil] at h
      rw [documentReads, h, decode, bytesOf, decodeFrom_utf8]
  | cons chunk blocks ih =>
      rw [List.flatten_cons, ← List.append_assoc] at h
      obtain ⟨before, later, rfl, hlater, hdecode⟩ := decodeFrom_front 0 h
      have hreads : documentReads held waiting (chunk :: blocks) =
          (textReads (withoutHeldReturn (waiting ++ before)) ++
            textReads (heldReturn (waiting ++ before) ++ later), .ended) := by
        rcases hdecode with hdecode | ⟨e, hdecode⟩ <;>
          rw [documentReads, decode, hdecode] <;> simp only [ih hlater]
      rw [hreads, textReads, textReads, ← List.map_append, toLineFeeds_heldReturn,
        List.append_assoc]
      rfl

/-- **A document in UTF-8 is the feed of its text,** with line feeds for its line ends. -/
theorem ofDocument_utf8 (s : String) :
    ofDocument s.toUTF8.data.toList = ofString (withLineFeeds s) := by
  have hbytes : [] ++ (chunks s.toUTF8.data.toList).flatten = bytesOf s.toList :=
    (flatten_chunks _).trans (bytes_toUTF8 s)
  have hreads := documentReads_bytesOf hbytes []
  unfold ofDocument ofString ofChars withLineFeeds
  simp only [hreads, List.nil_append, textReads, List.length_map, String.toList_ofList,
    toLineFeeds_eq]

theorem ofDocument_malformed {bytes : List UInt8} {e : DecodeError}
    (hsize : bytes.length ≤ chunkSize) (h : decode bytes = .malformed e) :
    (ofDocument bytes).ahead = [.fault (decodeFault e)] := by
  have hbytes : bytes ≠ [] := by
    rintro rfl
    cases h
  unfold ofDocument
  rw [chunks_of_length_le hbytes hsize]
  simp only [documentReads, List.nil_append, h]
  rfl

theorem ofDocument_truncated {bytes : List UInt8} {cs : List Char} {e : DecodeError}
    (hsize : bytes.length ≤ chunkSize) (h : decode bytes = .truncated cs e) :
    (ofDocument bytes).ahead = textReads (withoutHeldReturn cs) ∧
      (ofDocument bytes).tail = .fault (decodeFault e) := by
  have hbytes : bytes ≠ [] := by
    rintro rfl
    cases h
  unfold ofDocument
  rw [chunks_of_length_le hbytes hsize]
  simp only [documentReads, List.nil_append, h, decode_drop_of_truncated h, List.append_nil,
    and_self]

end Feed

end FilterLex
