import Jess.Text.Line

/-!
# Lines that can be typed

Every list of lines without a newline in them is what some input is read as:
each line is typed with a carriage return and a newline behind it, and both
belong to its end. What is written line by line is the texts of the lines one
behind the other.
-/

namespace Jess.Text

def encode (line : String) : List UInt8 := line.toList.flatMap String.utf8EncodeChar

def typed (sources : List String) : List UInt8 :=
  sources.flatMap fun line => encode line ++ [13, 10]

theorem decode_encode (line : String) : decode? (encode line) = some line := by
  have bytes : ByteArray.mk (encode line).toArray = line.toByteArray := by
    rw [← String.utf8Encode_toList, List.utf8Encode, encode]
    apply ByteArray.ext
    rw [List.data_toByteArray]
  have valid : line.toByteArray.IsValidUTF8 := line.isValidUTF8
  rw [decode?, bytes, String.fromUTF8?, dif_pos valid]
  rfl

/-- The byte of a newline is in no other character. -/
theorem newline_of_mem {c : Char} (member : 10 ∈ String.utf8EncodeChar c) : c = '\n' := by
  have low : ∀ v, v < 256 → (10 : UInt8) = UInt8.ofNat v → v = 10 := by
    intro v small same
    have values := congrArg UInt8.toNat same
    rw [UInt8.toNat_ofNat_of_lt' small] at values
    exact values.symm
  have byte : c.val.toNat = 10 := by
    unfold String.utf8EncodeChar at member
    simp only at member
    split at member
    · exact low _ (by omega) (List.mem_singleton.mp member)
    -- The bytes of the longer encodings are too large.
    split at member
    · simp only [List.mem_cons, List.not_mem_nil, or_false] at member
      rcases member with same | same <;> have value := low _ (by omega) same <;> omega
    split at member
    · simp only [List.mem_cons, List.not_mem_nil, or_false] at member
      rcases member with same | same | same <;> have value := low _ (by omega) same <;> omega
    · simp only [List.mem_cons, List.not_mem_nil, or_false] at member
      rcases member with same | same | same | same <;>
        have value := low _ (by omega) same <;> omega
  apply Char.ext
  apply UInt32.toNat_inj.mp
  exact byte

theorem encode_plain {line : String} (plain : '\n' ∉ line.toList) : 10 ∉ encode line := by
  intro member
  obtain ⟨c, inside, byte⟩ := List.mem_flatMap.mp member
  rw [newline_of_mem byte] at inside
  exact plain inside

theorem collectLines_plain {bytes : List UInt8} (plain : 10 ∉ bytes) (done : Array (List UInt8))
    (open_ rest : List UInt8) :
    collectLines done open_ (bytes ++ rest) = collectLines done (bytes.reverse ++ open_) rest := by
  induction bytes generalizing open_ with
  | nil => rfl
  | cons byte bytes ih =>
      have other : byte ≠ 10 := fun same => plain (by simp [same])
      have later : 10 ∉ bytes := fun member => plain (List.mem_cons_of_mem _ member)
      rw [List.cons_append, collectLines, if_neg other, ih later, List.reverse_cons,
        List.append_assoc]
      rfl

theorem collectLines_typed (sources : List String) (plain : ∀ line ∈ sources, '\n' ∉ line.toList)
    (done : Array (List UInt8)) :
    (collectLines done [] (typed sources)).toList = done.toList ++ sources.map encode := by
  induction sources generalizing done with
  | nil => simp [typed, collectLines]
  | cons line rest ih =>
      have bytes := encode_plain (plain line (List.mem_cons_self ..))
      have returned : (13 : UInt8) ≠ 10 := by decide
      have ended : withoutReturn (13 :: (encode line).reverse).reverse = encode line := by
        simp [withoutReturn]
      have later := ih (fun other member => plain other (List.mem_cons_of_mem _ member))
        (done.push (encode line))
      rw [typed, List.flatMap_cons, List.append_assoc, collectLines_plain bytes, List.append_nil,
        List.cons_append, List.cons_append, List.nil_append, collectLines, if_neg returned,
        collectLines, if_pos rfl, ended]
      simpa [typed] using later

theorem lines_typed (sources : List String) (plain : ∀ line ∈ sources, '\n' ∉ line.toList) :
    (lines (typed sources)).map decode? = sources.map some := by
  have collected := collectLines_typed sources plain #[]
  rw [lines, collected, List.nil_append, List.map_map]
  apply List.map_congr_left
  intro line _
  exact decode_encode line

theorem foldl_text {α : Type} (f : α → String) (start : String) (items : List α) :
    items.foldl (fun text item => text ++ f item) start =
      start ++ items.foldl (fun text item => text ++ f item) "" := by
  induction items generalizing start with
  | nil => simp
  | cons item rest ih =>
      rw [List.foldl_cons, List.foldl_cons, ih, ih ("" ++ f item)]
      simp [String.append_assoc]

def unlines (lines : List String) : String :=
  lines.foldl (fun text line => text ++ line ++ "\n") ""

theorem unlines_eq (lines : List String) :
    unlines lines = lines.foldl (fun text line => text ++ (line ++ "\n")) "" := by
  simp only [unlines, String.append_assoc]

theorem unlines_append (first second : List String) :
    unlines (first ++ second) = unlines first ++ unlines second := by
  rw [unlines_eq, List.foldl_append, foldl_text, ← unlines_eq, ← unlines_eq]

end Jess.Text
