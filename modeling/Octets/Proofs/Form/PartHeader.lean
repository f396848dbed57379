import Mathlib.Data.List.Basic
import Octets.Proofs.Form.Syntax
import Octets.Proofs.Text.Utf8

/-!
# Header lines are read as they were written

The texts of a header line come back: a quoted text behind its escapes, a content
type between the blanks around it, and both of them from their bytes. Whatever
was written holds only bytes that a header line may hold.

## Main results

* `closingIndex_escape_append`, `unquote_escape` — the escapes of a quoted text
* `parameterValue_quote_append` — a quoted text comes back, whatever follows it
* `readDisposition_disposition` — a content disposition gives both names
* `IsHeaderLine.readLine_eq` — a line is read as the header and the value it was
  made of
* `isHeader_of_mem_disposition`, `IsHeaderLine.isHeader_of_mem` — no byte of a
  written line ends it
-/

namespace Octets.Form

variable {b : UInt8} {bytes rest name value line : Bytes} {text : String} {part : Part}

/-! ## Quotes -/

theorem escape_cons (b : UInt8) (bytes : Bytes) :
    escape (b :: bytes) = (if b = 0x22 ∨ b = 0x5C then [0x5C, b] else [b]) ++ escape bytes := rfl

theorem closingIndex_quote_cons (rest : Bytes) :
    Scan.closingIndex Byte.doubleQuote (Byte.doubleQuote :: rest) = some 0 := by
  cases rest <;> rfl

theorem closingIndex_escaped_cons (b : UInt8) (rest : Bytes) :
    Scan.closingIndex Byte.doubleQuote (Byte.backslash :: b :: rest) =
      (Scan.closingIndex Byte.doubleQuote rest).map (· + 2) := rfl

theorem closingIndex_cons_of_ne (quote : b ≠ Byte.doubleQuote) (backslash : b ≠ Byte.backslash)
    (rest : Bytes) :
    Scan.closingIndex Byte.doubleQuote (b :: rest) =
      (Scan.closingIndex Byte.doubleQuote rest).map (· + 1) := by
  cases rest with
  | nil => simp [Scan.closingIndex, quote]
  | cons c rest => rw [Scan.closingIndex, if_neg backslash, if_neg quote]

/-- The quote behind an escaped text is the first that is not escaped. -/
theorem closingIndex_escape_append (bytes rest : Bytes) :
    Scan.closingIndex Byte.doubleQuote (escape bytes ++ Byte.doubleQuote :: rest) =
      some (escape bytes).length := by
  induction bytes with
  | nil => exact closingIndex_quote_cons rest
  | cons b bytes ih =>
    rw [escape_cons]
    by_cases special : b = 0x22 ∨ b = 0x5C
    · rw [if_pos special]
      simp only [List.cons_append, List.nil_append, List.length_cons]
      rw [closingIndex_escaped_cons, ih]
      rfl
    · rw [if_neg special]
      obtain ⟨quote, backslash⟩ := not_or.mp special
      simp only [List.cons_append, List.nil_append, List.length_cons]
      rw [closingIndex_cons_of_ne quote backslash, ih]
      rfl

theorem unquote_cons_of_ne (backslash : b ≠ Byte.backslash) (rest : Bytes) :
    unquote (b :: rest) = b :: unquote rest := by
  cases rest with
  | nil => simp [unquote, backslash]
  | cons c rest => rw [unquote, if_neg backslash]

/-- Escaping is undone. -/
theorem unquote_escape (bytes : Bytes) : unquote (escape bytes) = bytes := by
  induction bytes with
  | nil => rfl
  | cons b bytes ih =>
    rw [escape_cons]
    by_cases special : b = 0x22 ∨ b = 0x5C
    · rw [if_pos special]
      show b :: unquote (escape bytes) = b :: bytes
      rw [ih]
    · rw [if_neg special, List.singleton_append, unquote_cons_of_ne (not_or.mp special).2, ih]

/-- A quoted text is read as that text, whatever follows it. -/
theorem parameterValue_quote_append (text : String) (rest : Bytes) :
    parameterValue (quote text ++ rest) = (text, rest) := by
  have closes : Scan.quotedEscaped Byte.doubleQuote (quote text ++ rest) =
      some ((escape (Bytes.ofText text)).length + 2) := by
    simp only [quote, List.cons_append, List.append_assoc, List.nil_append]
    rw [Scan.quotedEscaped, if_pos rfl, closingIndex_escape_append]
    rfl
  have inner : (quote text ++ rest).slice 1 ((escape (Bytes.ofText text)).length + 1) =
      escape (Bytes.ofText text) := by
    simp [quote, Bytes.slice]
  have behind : (quote text ++ rest).drop ((escape (Bytes.ofText text)).length + 2) = rest := by
    simp [quote]
  unfold parameterValue
  rw [closes]
  show (Utf8.decodeLossy (unquote (Bytes.slice _ 1 (_ + 1))), _) = _
  rw [inner, behind, unquote_escape, Utf8.decodeLossy_ofText]

/-! ## Content dispositions -/

theorem dropWhile_eq_self {cls : UInt8 → Bool} (stop : ∀ b ∈ bytes.head?, cls b = false) :
    bytes.dropWhile cls = bytes := by
  cases bytes with
  | nil => rfl
  | cons b rest => exact List.dropWhile_cons_of_neg (by simp [stop b rfl])

/-- A parameter behind its semicolon is read as its name and its text. -/
theorem parameter_append (word : ∀ b ∈ name, isParameterName b = true)
    (stop : ∀ b ∈ name.head?, Byte.isSpaceTab b = false) (text : String) (rest : Bytes) :
    parameter (0x20 :: (name ++ 0x3D :: (quote text ++ rest))) =
      (Bytes.lower name, text, rest.dropWhile Byte.isSpaceTab) := by
  have start : (0x20 :: (name ++ 0x3D :: (quote text ++ rest))).dropWhile Byte.isSpaceTab =
      name ++ 0x3D :: (quote text ++ rest) := by
    rw [List.dropWhile_cons_of_pos rfl, dropWhile_eq_self]
    cases name with
    | nil =>
      rintro _ ⟨⟩
      rfl
    | cons c _ => exact stop
  have taken : (name ++ 0x3D :: (quote text ++ rest)).takeWhile isParameterName = name := by
    rw [List.takeWhile_append_of_pos word, List.takeWhile_cons_of_neg (by decide), List.append_nil]
  have left : (name ++ 0x3D :: (quote text ++ rest)).dropWhile isParameterName =
      0x3D :: (quote text ++ rest) := by
    rw [List.dropWhile_append_of_pos word, List.dropWhile_cons_of_neg (by decide)]
  simp only [parameter, start, taken, left, if_pos, parameterValue_quote_append]

theorem readParameters_append (part : Part) (header : String)
    (word : ∀ b ∈ Bytes.ofText header, isParameterName b = true)
    (stop : ∀ b ∈ (Bytes.ofText header).head?, Byte.isSpaceTab b = false) (text : String)
    (rest : Bytes) :
    part.readParameters (quotedParameter header text ++ rest) =
      (part.assign (Bytes.lower (Bytes.ofText header)) text).readParameters
        (rest.dropWhile Byte.isSpaceTab) := by
  simp only [quotedParameter, List.cons_append, List.append_assoc]
  rw [Part.readParameters, if_pos rfl]
  simp only [parameter_append word stop]

theorem readParameters_nil (part : Part) : part.readParameters [] = some part := by
  rw [Part.readParameters]

/-- A content disposition gives the name of the part, and that of the file. -/
theorem readDisposition_disposition (name : String) (filename : Option String) :
    Part.empty.readDisposition (disposition name filename) = .ok ⟨some name, filename, none⟩ := by
  have isForm : Scan.either (Bytes.ofText "form-data") (Bytes.ofText "FORM-DATA")
      (disposition name filename) = some 9 := rfl
  have behind : (disposition name filename).drop 9 =
      quotedParameter "name" name ++ filename.elim [] (quotedParameter "filename") := rfl
  have read : Part.empty.readParameters ((disposition name filename).drop 9) =
      some ⟨some name, filename, none⟩ := by
    rw [behind, readParameters_append _ "name" (List.all_eq_true.mp rfl) (by rintro _ ⟨⟩; rfl)]
    cases filename with
    | none => exact readParameters_nil _
    | some file =>
      have line : (Option.elim (some file) [] (quotedParameter "filename")).dropWhile
          Byte.isSpaceTab = quotedParameter "filename" file ++ [] := by
        rw [List.append_nil]
        rfl
      rw [line, readParameters_append _ "filename" (List.all_eq_true.mp rfl)
        (by rintro _ ⟨⟩; rfl)]
      exact readParameters_nil _
  rw [Part.readDisposition, isForm]
  simp only [read]

/-! ## Header lines -/

theorem isHeader_iff : isHeader b = true ↔ 0x20 ≤ b ∨ b = 0x09 := by
  simp [isHeader, isText]

theorem isSpaceTab_of_blank (blank : b = 0x20 ∨ b = 0x09) : Byte.isSpaceTab b = true := by
  rcases blank with rfl | rfl <;> rfl

theorem isHeader_of_isHeader_lower (fits : isHeader (Byte.lower b) = true) : isHeader b = true := by
  unfold Byte.lower at fits
  split at fits
  · rename_i capital
    exact isHeader_iff.mpr (.inl (UInt8.le_trans (by decide) capital.1))
  · exact fits

/-- A header line is read as the header and the value that it was made of. -/
theorem IsHeaderLine.readLine_eq {header : String} (valid : IsHeaderLine header value line)
    (named : Bytes.ofText header ≠ []) (word : Byte.colon ∉ Bytes.ofText header)
    (stop : ∀ b ∈ value.head?, Byte.isSpaceTab b = false) (part : Part) :
    part.readLine line =
      if Bytes.ofText header = Bytes.ofText "content-disposition" then
        part.readDisposition value
      else if Bytes.ofText header = Bytes.ofText "content-type" then
        .ok { part with contentType := some (Utf8.decodeLossy (Bytes.trim value)) }
      else .ok part := by
  obtain ⟨name, blanks, spelled, gap, rfl⟩ := valid
  have word' (b : UInt8) (member : b ∈ name) : (b != Byte.colon) = true := by
    -- A colon stays one in small letters, and the header holds none.
    rw [bne_iff_ne]
    rintro rfl
    exact word (spelled ▸ List.mem_map.mpr ⟨Byte.colon, member, rfl⟩)
  have nonempty : name.isEmpty = false := by
    cases name with
    | nil => exact absurd spelled.symm named
    | cons _ _ => rfl
  have taken : (name ++ 0x3A :: (blanks ++ value)).takeWhile (· != Byte.colon) = name := by
    rw [List.takeWhile_append_of_pos word', List.takeWhile_cons_of_neg (by decide),
      List.append_nil]
  have left : (name ++ 0x3A :: (blanks ++ value)).dropWhile (· != Byte.colon) =
      0x3A :: (blanks ++ value) := by
    rw [List.dropWhile_append_of_pos word', List.dropWhile_cons_of_neg (by decide)]
  have skipped : (blanks ++ value).dropWhile Byte.isSpaceTab = value := by
    rw [List.dropWhile_append_of_pos fun b member => isSpaceTab_of_blank (gap b member),
      dropWhile_eq_self stop]
  simp only [Part.readLine, taken, left, skipped, nonempty, spelled, Bool.false_eq_true, if_false]

/-- The line of a content disposition gives the name of the part, and that of the
file. -/
theorem readLine_disposition {name : String} {filename : Option String}
    (valid : IsHeaderLine "content-disposition" (disposition name filename) line) :
    Part.empty.readLine line = .ok ⟨some name, filename, none⟩ := by
  have stop : ∀ b ∈ (disposition name filename).head?, Byte.isSpaceTab b = false := by
    rintro _ ⟨⟩
    rfl
  rw [valid.readLine_eq (by decide) (by decide) stop, if_pos rfl, readDisposition_disposition]

theorem trimLeft_eq_self (stop : ∀ b ∈ bytes.head?, Byte.isBlank b = false) :
    Bytes.trimLeft bytes = bytes :=
  dropWhile_eq_self stop

theorem trim_ofText (trimmed : IsTrimmed text) :
    Bytes.trim (Bytes.ofText text) = Bytes.ofText text := by
  have back : ∀ b ∈ (Bytes.ofText text).reverse.head?, Byte.isBlank b = false := by
    rw [List.head?_reverse]
    exact trimmed.2
  rw [Bytes.trim, trimLeft_eq_self trimmed.1, trimLeft_eq_self back, List.reverse_reverse]

/-- Spaces and tabs are blanks, and the no-break space of Latin-1 begins no text. -/
theorem not_isSpaceTab_of_mem_head? (trimmed : IsTrimmed text)
    (first : b ∈ (Bytes.ofText text).head?) : Byte.isSpaceTab b = false := by
  have start := Utf8.not_isTail_of_mem_head?_ofText first
  have visible := trimmed.1 b first
  by_contra blank
  simp only [Byte.isSpaceTab, Byte.isSpace, Bool.not_eq_false, Bool.or_eq_true, beq_iff_eq] at blank
  obtain (rfl | rfl) | rfl := blank
  · cases visible
  · cases start
  · cases visible

/-- The line of a content type gives just that. -/
theorem readLine_contentType (part : Part) (trimmed : IsTrimmed text)
    (valid : IsHeaderLine "content-type" (Bytes.ofText text) line) :
    part.readLine line = .ok { part with contentType := some text } := by
  have stop (b : UInt8) (first : b ∈ (Bytes.ofText text).head?) : Byte.isSpaceTab b = false :=
    not_isSpaceTab_of_mem_head? trimmed first
  rw [valid.readLine_eq (by decide) (by decide) stop, if_neg (by decide), if_pos rfl,
    trim_ofText trimmed, Utf8.decodeLossy_ofText]

/-! ## The bytes of header lines -/

theorem IsHeaderLine.isHeader_of_mem {header : String} (valid : IsHeaderLine header value line)
    (named : ∀ b ∈ Bytes.ofText header, isHeader b = true)
    (valued : ∀ b ∈ value, isHeader b = true) : ∀ b ∈ line, isHeader b = true := by
  obtain ⟨name, blanks, spelled, gap, rfl⟩ := valid
  have spell (b : UInt8) (member : b ∈ name) : isHeader b = true :=
    isHeader_of_isHeader_lower (named _ (spelled ▸ List.mem_map.mpr ⟨b, member, rfl⟩))
  have blank (b : UInt8) (member : b ∈ blanks) : isHeader b = true := by
    rcases gap b member with rfl | rfl <;> rfl
  intro b member
  rcases List.mem_append.mp member with member | member
  · exact spell b member
  rcases List.mem_cons.mp member with rfl | member
  · rfl
  rcases List.mem_append.mp member with member | member
  · exact blank b member
  · exact valued b member

theorem IsHeaderText.isHeader_of_mem (valid : IsHeaderText text) :
    ∀ b ∈ Bytes.ofText text, isHeader b = true :=
  fun b member => isHeader_iff.mpr (valid b member)

theorem isHeader_of_mem_escape (fits : ∀ b ∈ bytes, isHeader b = true) :
    ∀ b ∈ escape bytes, isHeader b = true := by
  intro b member
  obtain ⟨c, source, written⟩ := List.mem_flatMap.mp member
  split at written
  · rcases List.mem_cons.mp written with rfl | written
    · rfl
    · rw [List.mem_singleton.mp written]
      exact fits c source
  · rw [List.mem_singleton.mp written]
    exact fits c source

theorem isHeader_of_mem_quote (valid : IsHeaderText text) :
    ∀ b ∈ quote text, isHeader b = true := by
  have inner := isHeader_of_mem_escape valid.isHeader_of_mem
  simp only [quote, List.mem_cons, List.mem_append, List.not_mem_nil, or_false]
  rintro b (rfl | member | rfl)
  · rfl
  · exact inner b member
  · rfl

theorem isHeader_of_mem_quotedParameter {header : String}
    (named : ∀ b ∈ Bytes.ofText header, isHeader b = true) (valid : IsHeaderText text) :
    ∀ b ∈ quotedParameter header text, isHeader b = true := by
  have valued := isHeader_of_mem_quote valid
  simp only [quotedParameter, List.mem_cons, List.mem_append]
  rintro b (rfl | rfl | member | rfl | member)
  · rfl
  · rfl
  · exact named b member
  · rfl
  · exact valued b member

theorem isHeader_of_mem_disposition {name : String} {filename : Option String}
    (valid : IsHeaderText name) (valid' : ∀ text ∈ filename, IsHeaderText text) :
    ∀ b ∈ disposition name filename, isHeader b = true := by
  intro b member
  rcases List.mem_append.mp member with member | member
  · rcases List.mem_append.mp member with member | member
    · exact List.all_eq_true.mp (show (Bytes.ofText "form-data").all isHeader = true from rfl) b
        member
    · exact isHeader_of_mem_quotedParameter (List.all_eq_true.mp rfl) valid b member
  · cases filename with
    | none => cases member
    | some text =>
      exact isHeader_of_mem_quotedParameter (List.all_eq_true.mp rfl) (valid' text rfl) b member

end Octets.Form
