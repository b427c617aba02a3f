import NormalGrammar.Source.Reader

/-!
# Cutting texts into lines

A file is cut into lines as bytes, and each line is decoded.  For a file that is a text this is the
same as cutting the characters (`readLines_toUTF8`), since the bytes of a line feed and of a carriage
return stand for nothing else (`mem_utf8EncodeChar_of_lt`).  No line that was decoded holds a line
feed, whatever the bytes of the file (`lineFeed_not_mem_of_mem_readLines`).
-/

namespace NormalGrammar
namespace Text

section Cutting

variable {α : Type} [DecidableEq α] {feed carriage x : α} {line block rest : List α}

/-! ## Cutting -/

/-- Some elements before the first of some lines. -/
def prepend (block : List α) : List (List α) → List (List α)
  | [] => [block]
  | line :: others => (block ++ line) :: others

/-- An element that does not end a line stands before the first line of the rest. -/
theorem cutLines_cons (hfeed : x ≠ feed) (hend : ¬ (x = carriage ∧ rest.head? = some feed)) :
    cutLines feed carriage (x :: rest) = prepend [x] (cutLines feed carriage rest) := by
  rw [cutLines]
  simp only [if_neg hfeed, if_neg hend]
  cases cutLines feed carriage rest <;> rfl

theorem cutLines_append (hne : block ≠ []) (hblock : ∀ x ∈ block, x ≠ feed ∧ x ≠ carriage) :
    cutLines feed carriage (block ++ rest) = prepend block (cutLines feed carriage rest) := by
  induction block with
  | nil => exact absurd rfl hne
  | cons x block ih =>
    obtain ⟨⟨hfeed, hcarriage⟩, hblock⟩ := List.forall_mem_cons.1 hblock
    rw [List.cons_append, cutLines_cons hfeed fun h => hcarriage h.1]
    cases block with
    | nil => rfl
    | cons y block =>
      rw [ih (List.cons_ne_nil _ _) hblock]
      cases cutLines feed carriage rest <;> rfl

theorem cutLines_append_feed (hfeed : feed ∉ line) (hend : line.getLast? ≠ some carriage) :
    cutLines feed carriage (line ++ feed :: rest) = line :: cutLines feed carriage rest := by
  induction line with
  | nil => simp [cutLines]
  | cons x line ih =>
    rw [List.mem_cons, not_or] at hfeed
    rw [List.cons_append, cutLines_cons (Ne.symm hfeed.1)]
    · cases line with
      | nil => simp [cutLines, prepend]
      | cons y line =>
        rw [ih hfeed.2 (by simpa using hend)]
        rfl
    · rintro ⟨rfl, hhead⟩
      cases line with
      | nil => exact hend rfl
      | cons y line => exact hfeed.2 (by simp [Option.some.inj hhead])

@[simp]
theorem cutLines_feed :
    cutLines feed carriage (feed :: rest) = [] :: cutLines feed carriage rest := by
  simp [cutLines]

theorem cutLines_carriage_feed (hne : carriage ≠ feed) :
    cutLines feed carriage (carriage :: feed :: rest) = [] :: cutLines feed carriage rest := by
  simp [cutLines, hne]

/-- A line that is ended by a carriage return and a line feed is cut off, whatever it ends with. -/
theorem cutLines_append_carriage (hne : carriage ≠ feed) (hfeed : feed ∉ line) :
    cutLines feed carriage (line ++ carriage :: feed :: rest) =
      line :: cutLines feed carriage rest := by
  induction line with
  | nil => exact cutLines_carriage_feed hne
  | cons x line ih =>
    rw [List.mem_cons, not_or] at hfeed
    rw [List.cons_append, cutLines_cons (Ne.symm hfeed.1), ih hfeed.2]
    · rfl
    · rintro ⟨-, hhead⟩
      cases line with
      | nil => exact hne (Option.some.inj hhead)
      | cons y line => exact hfeed.2 (by simp [Option.some.inj hhead])

theorem cutLines_of_not_mem (hfeed : feed ∉ line) (hne : line ≠ []) :
    cutLines feed carriage line = [line] := by
  induction line with
  | nil => exact absurd rfl hne
  | cons x line ih =>
    rw [List.mem_cons, not_or] at hfeed
    rw [cutLines_cons (Ne.symm hfeed.1)]
    · cases line with
      | nil => rfl
      | cons y line =>
        rw [ih hfeed.2 (List.cons_ne_nil _ _)]
        rfl
    · rintro ⟨-, hhead⟩
      exact hfeed.2 (List.mem_of_head? hhead)

theorem cutLines_ne_nil {xs : List α} (hne : xs ≠ []) : cutLines feed carriage xs ≠ [] := by
  induction xs with
  | nil => exact absurd rfl hne
  | cons x rest ih =>
    by_cases hfeed : x = feed
    · simp [cutLines, hfeed]
    · by_cases hend : x = carriage ∧ rest.head? = some feed
      · simp only [cutLines, if_neg hfeed, if_pos hend]
        apply ih
        rintro rfl
        cases hend.2
      · rw [cutLines_cons hfeed hend]
        cases cutLines feed carriage rest <;> exact List.cons_ne_nil _ _

/-- What ends with a line feed is cut on its own. -/
theorem cutLines_append_of_getLast? {xs : List α} (hlast : xs.getLast? = some feed) :
    cutLines feed carriage (xs ++ rest) =
      cutLines feed carriage xs ++ cutLines feed carriage rest := by
  induction xs with
  | nil => cases hlast
  | cons x xs ih =>
    cases xs with
    | nil =>
      obtain rfl : x = feed := by simpa using hlast
      simp [cutLines]
    | cons y ys =>
      have hys := ih (by simpa using hlast)
      rw [List.cons_append] at hys
      rw [List.cons_append, List.cons_append]
      by_cases hfeed : x = feed
      · rw [hfeed, cutLines_feed, cutLines_feed, hys, List.cons_append]
      · by_cases hend : x = carriage ∧ y = feed
        · obtain ⟨rfl, rfl⟩ := hend
          rw [cutLines_carriage_feed hfeed, cutLines_carriage_feed hfeed]
          rwa [cutLines_feed, cutLines_feed] at hys
        · rw [cutLines_cons hfeed (by simpa using hend), cutLines_cons hfeed (by simpa using hend), hys]
          have hne : cutLines feed carriage (y :: ys) ≠ [] := cutLines_ne_nil (List.cons_ne_nil y ys)
          obtain ⟨line, others, hlines⟩ := List.exists_cons_of_ne_nil hne
          rw [hlines]
          rfl

theorem feed_not_mem_of_mem_cutLines {xs : List α} (hline : line ∈ cutLines feed carriage xs) :
    feed ∉ line := by
  induction xs generalizing line with
  | nil => cases hline
  | cons x rest ih =>
    by_cases hfeed : x = feed
    · simp only [cutLines, if_pos hfeed] at hline
      rcases List.mem_cons.1 hline with rfl | hline
      · exact List.not_mem_nil
      · exact ih hline
    · by_cases hend : x = carriage ∧ rest.head? = some feed
      · simp only [cutLines, if_neg hfeed, if_pos hend] at hline
        exact ih hline
      · rw [cutLines_cons hfeed hend] at hline
        have hx : feed ∉ [x] := by simpa using Ne.symm hfeed
        cases hlines : cutLines feed carriage rest with
        | nil =>
          rw [hlines] at hline
          rwa [List.mem_singleton.1 hline]
        | cons first others =>
          rw [hlines] at hline ih
          rcases List.mem_cons.1 hline with rfl | hline
          · have hfirst := ih (List.mem_cons_self ..)
            simp [Ne.symm hfeed, hfirst]
          · exact ih (List.mem_cons_of_mem _ hline)

end Cutting

/-! ## Bytes and characters -/

variable {c : Char} {b : UInt8} {text : String} {contents : ByteArray} {cs : List Char}

/-- The bytes of some characters. -/
def bytesOf (cs : List Char) : List UInt8 := cs.flatMap String.utf8EncodeChar

/-- A byte below 128 is a character of its own. -/
theorem mem_utf8EncodeChar_of_lt (hb : b ∈ String.utf8EncodeChar c) (hlt : b.toNat < 128) :
    String.utf8EncodeChar c = [b] ∧ c.toNat = b.toNat := by
  have hlarge : ∀ n, 128 ≤ n → n < 256 → b ≠ UInt8.ofNat n := by
    rintro n hn hn' rfl
    rw [UInt8.toNat_ofNat_of_lt' hn'] at hlt
    omega
  have hv : c.toNat = c.val.toNat := rfl
  unfold String.utf8EncodeChar at hb ⊢
  dsimp only at hb ⊢
  generalize c.val.toNat = v at hb hv ⊢
  split at hb
  · rename_i hsmall
    obtain rfl := List.mem_singleton.1 hb
    rw [if_pos hsmall]
    exact ⟨rfl, by rw [hv, UInt8.toNat_ofNat_of_lt' (Nat.lt_of_le_of_lt hsmall (by decide))]⟩
  · exfalso
    split at hb
    · simp only [List.mem_cons, List.not_mem_nil, or_false] at hb
      rcases hb with hb | hb <;> exact hlarge _ (by omega) (by omega) hb
    · split at hb
      · simp only [List.mem_cons, List.not_mem_nil, or_false] at hb
        rcases hb with hb | hb | hb <;> exact hlarge _ (by omega) (by omega) hb
      · simp only [List.mem_cons, List.not_mem_nil, or_false] at hb
        rcases hb with hb | hb | hb | hb <;> exact hlarge _ (by omega) (by omega) hb

theorem eq_lineFeed_of_mem (h : 10 ∈ String.utf8EncodeChar c) : c = '\n' :=
  Char.toNat_inj.1 (mem_utf8EncodeChar_of_lt h (by decide)).2

theorem eq_carriageReturn_of_mem (h : 13 ∈ String.utf8EncodeChar c) : c = '\r' :=
  Char.toNat_inj.1 (mem_utf8EncodeChar_of_lt h (by decide)).2

theorem data_toUTF8 (text : String) : text.toUTF8.data.toList = bytesOf text.toList := by
  rw [String.toUTF8, ← String.utf8Encode_toList, List.utf8Encode, List.toList_data_toByteArray]
  rfl

/-- Bytes are decoded to the text whose bytes they are. -/
theorem fromUTF8?_eq_some_iff {line : List UInt8} :
    String.fromUTF8? line.toByteArray = some text ↔ line = bytesOf text.toList := by
  rw [← data_toUTF8]
  constructor
  · intro h
    unfold String.fromUTF8? at h
    split at h
    · obtain rfl := Option.some.inj h
      exact List.toList_data_toByteArray.symm
    · cases h
  · rintro rfl
    have hbytes : text.toUTF8.data.toList.toByteArray = text.toUTF8 :=
      ByteArray.ext (by simp [List.data_toByteArray])
    rw [hbytes]
    exact dif_pos text.isValidUTF8

theorem toList_eq_data_toList (contents : ByteArray) : contents.toList = contents.data.toList := by
  have hloop : ∀ i r, ByteArray.toList.loop contents i r =
      r.reverse ++ contents.data.toList.drop i := by
    intro i r
    fun_induction ByteArray.toList.loop contents i r with
    | case1 i r hlt ih =>
      have hi : i < contents.data.toList.length := by simpa using hlt
      rw [ih, List.drop_eq_getElem_cons hi]
      simp [ByteArray.get!, hlt]
    | case2 i r hlt =>
      rw [List.drop_eq_nil_of_le (by simpa using Nat.le_of_not_lt hlt)]
      simp
  simp [ByteArray.toList, hloop]

/-! ## Lines of texts -/

/-- A text starts with the byte of a line feed just when it starts with a line feed. -/
theorem head?_bytesOf_eq_lineFeed_iff : (bytesOf cs).head? = some 10 ↔ cs.head? = some '\n' := by
  cases cs with
  | nil => simp [bytesOf]
  | cons c cs =>
    obtain ⟨b, bs, hb⟩ := List.exists_cons_of_ne_nil (String.utf8EncodeChar_ne_nil (c := c))
    have hhead : (bytesOf (c :: cs)).head? = (String.utf8EncodeChar c).head? := by
      simp [bytesOf, hb]
    rw [hhead, List.head?_cons, Option.some.injEq]
    constructor
    · exact fun h => eq_lineFeed_of_mem (List.mem_of_head? h)
    · rintro rfl
      rfl

theorem map_bytesOf_prepend (c : Char) (lines : List (List Char)) :
    (prepend [c] lines).map bytesOf = prepend (String.utf8EncodeChar c) (lines.map bytesOf) := by
  cases lines <;> simp [prepend, bytesOf]

/-- Cutting bytes is cutting characters. -/
theorem cutLines_bytesOf (cs : List Char) :
    cutLines 10 13 (bytesOf cs) = (cutLines '\n' '\r' cs).map bytesOf := by
  induction cs with
  | nil => rfl
  | cons c cs ih =>
    have hbytes : bytesOf (c :: cs) = String.utf8EncodeChar c ++ bytesOf cs := List.flatMap_cons
    rw [hbytes]
    by_cases hfeed : c = '\n'
    · subst hfeed
      show cutLines 10 13 (10 :: bytesOf cs) = _
      simp only [cutLines, if_true, ih, List.map_cons]
      rfl
    · by_cases hcarriage : c = '\r'
      · subst hcarriage
        show cutLines 10 13 (13 :: bytesOf cs) = _
        by_cases hhead : cs.head? = some '\n'
        · simp [cutLines, ih, hhead, head?_bytesOf_eq_lineFeed_iff]
        · rw [cutLines_cons (by decide) (by simp [head?_bytesOf_eq_lineFeed_iff, hhead]),
            cutLines_cons hfeed (by simp [hhead]), ih, map_bytesOf_prepend]
          rfl
      · rw [cutLines_append String.utf8EncodeChar_ne_nil, cutLines_cons hfeed (by simp [hcarriage]),
          ih, map_bytesOf_prepend]
        refine fun b hb => ⟨?_, ?_⟩
        · rintro rfl
          exact hfeed (eq_lineFeed_of_mem hb)
        · rintro rfl
          exact hcarriage (eq_carriageReturn_of_mem hb)

/-- **The lines of a text** are those that are cut from its characters. -/
theorem readLines_toUTF8 (text : String) :
    readLines text.toUTF8 =
      (cutLines '\n' '\r' text.toList).map fun line => some (String.ofList line) := by
  rw [readLines, toList_eq_data_toList, data_toUTF8, cutLines_bytesOf, List.map_map]
  refine List.map_congr_left fun line _ => ?_
  rw [Function.comp_apply, fromUTF8?_eq_some_iff, String.toList_ofList]

/-- **Lines that are written one after the other**, each with a line feed at its end, are read back. -/
theorem readLines_join {lines : List String}
    (hlines : ∀ line ∈ lines, '\n' ∉ line.toList ∧ line.toList.getLast? ≠ some '\r') :
    readLines (String.join (lines.map (· ++ "\n"))).toUTF8 = lines.map some := by
  rw [readLines_toUTF8]
  induction lines with
  | nil => rfl
  | cons line lines ih =>
    obtain ⟨⟨hfeed, hend⟩, hlines⟩ := List.forall_mem_cons.1 hlines
    have hchars : (String.join ((line :: lines).map (· ++ "\n"))).toList =
        line.toList ++ '\n' :: (String.join (lines.map (· ++ "\n"))).toList := by
      simp
    rw [hchars, cutLines_append_feed hfeed hend, List.map_cons, ih hlines, String.ofList_toList,
      List.map_cons]

/-- **No line holds a line feed**, if it can be decoded. -/
theorem lineFeed_not_mem_of_mem_readLines (h : some text ∈ readLines contents) :
    '\n' ∉ text.toList := by
  obtain ⟨line, hline, hdecoded⟩ := List.mem_map.1 h
  rw [fromUTF8?_eq_some_iff] at hdecoded
  subst hdecoded
  intro hmem
  refine feed_not_mem_of_mem_cutLines hline (List.mem_flatMap.2 ⟨'\n', hmem, ?_⟩)
  decide

end Text
end NormalGrammar
