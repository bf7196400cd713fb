import Matcha.Util.Url

/-! # Property files

`LoadPropertyFile` of package `misc` on the bytes of the file (reading it is left out). A Go
slice out of range panics: `none`. -/
namespace Matcha.Misc

open Matcha.Util Matcha.Task

def bytes (s : String) : List UInt8 := s.toUTF8.data.toList

/-- The bytes of `' '`, `'#'`, `'='` and `'\n'`. -/
def spaceByte : UInt8 := 32

def hashByte : UInt8 := 35

def equalsByte : UInt8 := 61

def newlineByte : UInt8 := 10

/-- `regexpPropertyComment.ReplaceAllString(s, "\n")`: from a `#` with a line break after it,
the shortest run to that line break becomes a line break; a `#` with no line break after it
starts no match. `skipping` holds inside a match. -/
def replaceComments (skipping : Bool) : List UInt8 → List UInt8
  | [] => []
  | c :: t =>
    if skipping then
      if c = newlineByte then newlineByte :: replaceComments false t else replaceComments true t
    else if c = hashByte ∧ newlineByte ∈ t then replaceComments true t
    else c :: replaceComments false t

/-- `regexpPropertyLine.MatchString`: a first character, then an `=` with no line break before
it (`.` and `\w` match none). No byte of a multi-byte UTF-8 sequence is `=` or a line break, so
the test on bytes is the test on runes. -/
def regexpPropertyLine : List UInt8 → Bool
  | [] => false
  | c :: t => c != newlineByte && (t.takeWhile (· != newlineByte)).contains equalsByte

/-- `strings.Index(s, sep)` for a one-byte `sep`: its first byte offset, or `-1`. -/
def index (s : List UInt8) (sep : UInt8) : Int := if sep ∈ s then s.indexOf sep else -1

def sliceTo (s : List UInt8) (i : Int) : Option (List UInt8) :=
  if 0 ≤ i ∧ i ≤ s.length then some (s.take i.toNat) else none

def sliceFrom (s : List UInt8) (i : Int) : Option (List UInt8) :=
  if 0 ≤ i ∧ i ≤ s.length then some (s.drop i.toNat) else none

/-- `strings.Trim(s, " ")`. -/
def trim (s : List UInt8) : List UInt8 :=
  ((s.dropWhile (· == spaceByte)).reverse.dropWhile (· == spaceByte)).reverse

/-- `propertyValue`: empty, or `trimLine[firstEqualsIndex+1:]` when the `=` is not last. -/
def propertyValue (trimLine : List UInt8) (firstEqualsIndex : Int) : Option (List UInt8) :=
  if firstEqualsIndex + 1 ≠ trimLine.length then sliceFrom trimLine (firstEqualsIndex + 1)
  else pure []

/-- One pass of the loop over the lines. The key is cut from `line`, not from `trimLine`. -/
def loadLine (config : List (List UInt8 × List UInt8)) (line : List UInt8) :
    Option (List (List UInt8 × List UInt8)) :=
  let trimLine := trim line
  if !regexpPropertyLine trimLine then some config
  else do
    let firstEqualsIndex := index trimLine equalsByte
    let propertyKey ← sliceTo line firstEqualsIndex
    let propertyValue ← propertyValue trimLine firstEqualsIndex
    pure (mapSet config propertyKey propertyValue)

def loadPropertyFile (fileContent : List UInt8) : Option (List (List UInt8 × List UInt8)) :=
  ((replaceComments false fileContent).splitOn newlineByte).foldlM loadLine []

inductive PropertyLine where
  | property (key value : List UInt8)
  /-- `key=value #comment`. -/
  | commented (key value comment : List UInt8)
  | comment (text : List UInt8)
  | blank
  deriving DecidableEq, Repr

/-- A key that a line can carry: not empty, no `=`, `#` or line break, no space first. -/
def KeyOk (k : List UInt8) : Prop :=
  k ≠ [] ∧ equalsByte ∉ k ∧ hashByte ∉ k ∧ newlineByte ∉ k ∧ k.head? ≠ some spaceByte

def ValueOk (v : List UInt8) : Prop :=
  hashByte ∉ v ∧ newlineByte ∉ v ∧ v.getLast? ≠ some spaceByte

instance (k : List UInt8) : Decidable (KeyOk k) := inferInstanceAs (Decidable (_ ∧ _))
instance (v : List UInt8) : Decidable (ValueOk v) := inferInstanceAs (Decidable (_ ∧ _))

namespace PropertyLine

def text : PropertyLine → List UInt8
  | property k v => k ++ equalsByte :: v
  | commented k v c => k ++ equalsByte :: v ++ spaceByte :: hashByte :: c
  | comment c => hashByte :: c
  | blank => []

def entry : PropertyLine → Option (List UInt8 × List UInt8)
  | property k v | commented k v _ => some (k, v)
  | comment _ | blank => none

def WellFormed : PropertyLine → Prop
  | property k v => KeyOk k ∧ ValueOk v
  | commented k v c => KeyOk k ∧ ValueOk v ∧ newlineByte ∉ c
  | comment c => newlineByte ∉ c
  | blank => True

instance (l : PropertyLine) : Decidable l.WellFormed :=
  match l with
  | property k v => inferInstanceAs (Decidable (KeyOk k ∧ ValueOk v))
  | commented k v c => inferInstanceAs (Decidable (KeyOk k ∧ ValueOk v ∧ newlineByte ∉ c))
  | comment c => inferInstanceAs (Decidable (newlineByte ∉ c))
  | blank => inferInstanceAs (Decidable True)

def clean : PropertyLine → List UInt8
  | property k v => k ++ equalsByte :: v
  | commented k v _ => k ++ equalsByte :: v ++ [spaceByte]
  | comment _ | blank => []

end PropertyLine

def fileText (ls : List PropertyLine) : List UInt8 := ls.flatMap (·.text ++ [newlineByte])

theorem replaceComments_plain {a : List UInt8} (ha : hashByte ∉ a) (s : List UInt8) :
    replaceComments false (a ++ s) = a ++ replaceComments false s := by
  induction a with
  | nil => rfl
  | cons c a ih =>
    have hc : c ≠ hashByte := fun h => ha (h ▸ List.mem_cons_self _ _)
    simp [replaceComments, hc, ih fun h => ha (List.mem_cons_of_mem _ h)]

theorem replaceComments_skip {c : List UInt8} (hc : newlineByte ∉ c) (s : List UInt8) :
    replaceComments true (c ++ newlineByte :: s) = newlineByte :: replaceComments false s := by
  induction c with
  | nil => simp [replaceComments]
  | cons d c ih =>
    have hd : d ≠ newlineByte := fun h => hc (h ▸ List.mem_cons_self _ _)
    simp [replaceComments, hd, ih fun h => hc (List.mem_cons_of_mem _ h)]

theorem replaceComments_comment {c : List UInt8} (hc : newlineByte ∉ c) (s : List UInt8) :
    replaceComments false (hashByte :: c ++ newlineByte :: s) =
      newlineByte :: replaceComments false s := by
  rw [List.cons_append, replaceComments, if_neg Bool.false_ne_true,
    if_pos ⟨rfl, List.mem_append_right _ (List.mem_cons_self _ _)⟩, replaceComments_skip hc]

theorem not_mem_text_of_keyOk {k v : List UInt8} {c : UInt8} (hk : c ∉ k) (hv : c ∉ v)
    (hc : c ≠ equalsByte) : c ∉ k ++ equalsByte :: v := by
  intro h
  rcases List.mem_append.mp h with h | h
  · exact hk h
  · rcases List.mem_cons.mp h with h | h
    exacts [hc h, hv h]

theorem replaceComments_line {l : PropertyLine} (hl : l.WellFormed) (s : List UInt8) :
    replaceComments false (l.text ++ newlineByte :: s) =
      l.clean ++ newlineByte :: replaceComments false s := by
  cases l with
  | property k v =>
    exact replaceComments_plain (not_mem_text_of_keyOk hl.1.2.2.1 hl.2.1 (by decide)) _
  | commented k v c =>
    have ha : hashByte ∉ k ++ equalsByte :: v ++ [spaceByte] := by
      simpa [show hashByte ≠ spaceByte by decide] using
        not_mem_text_of_keyOk hl.1.2.2.1 hl.2.1.1 (by decide)
    have heq : (PropertyLine.commented k v c).text ++ newlineByte :: s =
        (k ++ equalsByte :: v ++ [spaceByte]) ++ (hashByte :: c ++ newlineByte :: s) := by
      simp [PropertyLine.text]
    rw [heq, replaceComments_plain ha, replaceComments_comment hl.2.2]
    rfl
  | comment c => exact replaceComments_comment hl s
  | blank => rfl

theorem replaceComments_fileText {ls : List PropertyLine} (h : ∀ l ∈ ls, l.WellFormed) :
    replaceComments false (fileText ls) = ls.flatMap (·.clean ++ [newlineByte]) := by
  induction ls with
  | nil => rfl
  | cons l ls ih =>
    simp only [fileText, List.flatMap_cons, List.append_assoc, List.singleton_append] at ih ⊢
    rw [replaceComments_line (h l (.head _)), ih fun l' hl' => h l' (.tail _ hl')]

theorem newline_not_mem_clean {l : PropertyLine} (hl : l.WellFormed) : newlineByte ∉ l.clean := by
  cases l with
  | property k v => exact not_mem_text_of_keyOk hl.1.2.2.2.1 hl.2.2.1 (by decide)
  | commented k v c =>
    simpa [PropertyLine.clean, show newlineByte ≠ spaceByte by decide] using
      not_mem_text_of_keyOk hl.1.2.2.2.1 hl.2.1.2.1 (by decide)
  | comment c => exact List.not_mem_nil _
  | blank => exact List.not_mem_nil _

theorem splitOn_clean {ls : List PropertyLine} (h : ∀ l ∈ ls, l.WellFormed) :
    (ls.flatMap (·.clean ++ [newlineByte])).splitOn newlineByte = ls.map (·.clean) ++ [[]] := by
  induction ls with
  | nil => rfl
  | cons l ls ih =>
    simp only [List.flatMap_cons, List.append_assoc, List.singleton_append, List.map_cons]
    rw [splitOn_append_cons _ (newline_not_mem_clean (h l (.head _))),
      ih fun l' hl' => h l' (.tail _ hl')]
    rfl

theorem trim_eq_self {s : List UInt8} (h₁ : s.head? ≠ some spaceByte)
    (h₂ : s.getLast? ≠ some spaceByte) : trim s = s := by
  rw [trim, dropWhile_eq_self_of_head h₁, dropWhile_eq_self_of_head (by simpa using h₂),
    List.reverse_reverse]

theorem trim_concat_space {s : List UInt8} (hs : s ≠ []) (h₁ : s.head? ≠ some spaceByte)
    (h₂ : s.getLast? ≠ some spaceByte) : trim (s ++ [spaceByte]) = s := by
  obtain ⟨c, t, rfl⟩ := List.exists_cons_of_ne_nil hs
  have h₀ : (c :: t ++ [spaceByte]).dropWhile (· == spaceByte) = c :: t ++ [spaceByte] :=
    dropWhile_eq_self_of_head (by simpa using h₁)
  have h₃ : (c :: t).reverse.dropWhile (· == spaceByte) = (c :: t).reverse :=
    dropWhile_eq_self_of_head (by rwa [List.head?_reverse])
  rw [trim, h₀, List.reverse_append, List.reverse_singleton, List.singleton_append,
    List.dropWhile_cons, if_pos (beq_self_eq_true spaceByte), h₃, List.reverse_reverse]

theorem regexpPropertyLine_entry {k v : List UInt8} (hk : KeyOk k) :
    regexpPropertyLine (k ++ equalsByte :: v) = true := by
  obtain ⟨c, t, rfl⟩ := List.exists_cons_of_ne_nil hk.1
  have hc : c ≠ newlineByte := fun h => hk.2.2.2.1 (h ▸ List.mem_cons_self _ _)
  have ht : ∀ d ∈ t, (d != newlineByte) = true := fun d hd => by
    simp only [bne_iff_ne, ne_eq]
    rintro rfl
    exact hk.2.2.2.1 (List.mem_cons_of_mem _ hd)
  rw [List.cons_append, regexpPropertyLine, List.takeWhile_append_of_pos ht]
  simp [hc, show (equalsByte != newlineByte) = true by decide]

theorem index_entry {k v : List UInt8} (hk : equalsByte ∉ k) :
    index (k ++ equalsByte :: v) equalsByte = k.length := by
  rw [index, if_pos (List.mem_append_right _ (List.mem_cons_self _ _)),
    List.indexOf_append_of_not_mem hk, List.indexOf_cons_self, Nat.add_zero]

theorem length_trim_le (s : List UInt8) : (trim s).length ≤ s.length := by
  rw [trim, List.length_reverse]
  calc _ ≤ (s.dropWhile (· == spaceByte)).reverse.length := (List.dropWhile_suffix _).length_le
    _ = (s.dropWhile (· == spaceByte)).length := List.length_reverse _
    _ ≤ s.length := (List.dropWhile_suffix _).length_le

/-- A line whose trimmed text is `key=value` sets the key cut from the line itself, as many
bytes as the key, to `value`. -/
theorem loadLine_trimmed {k v line : List UInt8} (hk : KeyOk k)
    (htrim : trim line = k ++ equalsByte :: v) (config : List (List UInt8 × List UInt8)) :
    loadLine config line = some (mapSet config (line.take k.length) v) := by
  have hlen : k.length ≤ line.length := by
    have := length_trim_le line
    rw [htrim, List.length_append] at this
    omega
  have hkey : sliceTo line k.length = some (line.take k.length) := by
    rw [sliceTo, if_pos ⟨by omega, by omega⟩, Int.toNat_ofNat]
  have hval : propertyValue (k ++ equalsByte :: v) k.length = some v := by
    rcases v.eq_nil_or_concat with rfl | ⟨w, c, rfl⟩
    · simp [propertyValue]
    · rw [propertyValue, if_pos (by simp; omega), sliceFrom, if_pos ⟨by omega, by simp; omega⟩]
      simp
  simp only [loadLine, htrim, regexpPropertyLine_entry hk, Bool.not_true, Bool.false_eq_true,
    ↓reduceIte, index_entry hk.2.1, hkey, hval]
  rfl

theorem head_entry {k v : List UInt8} (hk : KeyOk k) :
    (k ++ equalsByte :: v).head? ≠ some spaceByte := by
  obtain ⟨c, t, rfl⟩ := List.exists_cons_of_ne_nil hk.1
  simpa using hk.2.2.2.2

theorem getLast_entry {k v : List UInt8} (hv : ValueOk v) :
    (k ++ equalsByte :: v).getLast? ≠ some spaceByte := by
  rcases v.eq_nil_or_concat with rfl | ⟨w, c, rfl⟩
  · simp [show equalsByte ≠ spaceByte by decide]
  · rw [List.getLast?_append_cons, List.getLast?_cons, List.concat_eq_append,
      List.getLast?_concat]
    simpa using hv.2.2

theorem loadLine_clean {l : PropertyLine} (hl : l.WellFormed)
    (config : List (List UInt8 × List UInt8)) :
    loadLine config l.clean = some (match l.entry with
      | some e => mapSet config e.1 e.2
      | none => config) := by
  cases l with
  | property k v =>
    rw [PropertyLine.clean, loadLine_trimmed hl.1
      (trim_eq_self (head_entry hl.1) (getLast_entry hl.2)), List.take_left' rfl]
    rfl
  | commented k v c =>
    rw [PropertyLine.clean, loadLine_trimmed hl.1 (trim_concat_space (by simp)
      (head_entry hl.1) (getLast_entry hl.2.1)), List.append_assoc, List.take_left' rfl]
    rfl
  | comment c => rfl
  | blank => rfl

theorem lookup_filter_key {κ ν : Type} [BEq κ] [LawfulBEq κ] [DecidableEq κ] (m : List (κ × ν)) (k key : κ) :
    List.lookup key (m.filter (·.1 != k)) = if key = k then none else List.lookup key m := by
  induction m with
  | nil => split <;> rfl
  | cons e m ih =>
    obtain ⟨k', v'⟩ := e
    rw [List.filter_cons]
    by_cases hk : k' = k
    · subst hk
      simp only [bne_self_eq_false, Bool.false_eq_true, ↓reduceIte, ih]
      by_cases h : key = k'
      · simp only [h, ↓reduceIte]
      · simp only [h, ↓reduceIte, List.lookup_cons, beq_false_of_ne h]
    · have hk' : (k' != k) = true := by simpa using hk
      simp only [hk', ↓reduceIte, List.lookup_cons, ih]
      by_cases h : key = k'
      · subst h
        simp [hk]
      · simp [h, beq_false_of_ne h]

theorem lookup_mapSet {κ ν : Type} [BEq κ] [LawfulBEq κ] [DecidableEq κ] (m : List (κ × ν)) (k : κ) (v : ν)
    (key : κ) : List.lookup key (mapSet m k v) = if key = k then some v else List.lookup key m := by
  rw [mapSet, List.lookup_append, lookup_filter_key]
  by_cases h : key = k
  · simp [h]
  · simp [h, List.lookup_cons, beq_false_of_ne h]

def setEntries (config : List (List UInt8 × List UInt8)) (ls : List PropertyLine) :
    List (List UInt8 × List UInt8) :=
  ls.foldl (fun m l => match l.entry with
    | some e => mapSet m e.1 e.2
    | none => m) config

theorem foldlM_loadLine {ls : List PropertyLine} (h : ∀ l ∈ ls, l.WellFormed)
    (config : List (List UInt8 × List UInt8)) :
    (ls.map (·.clean)).foldlM loadLine config = some (setEntries config ls) := by
  induction ls generalizing config with
  | nil => rfl
  | cons l ls ih =>
    rw [List.map_cons, List.foldlM_cons, loadLine_clean (h l (.head _))]
    exact ih (fun l' hl' => h l' (.tail _ hl')) _

theorem lookup_setEntries (ls : List PropertyLine) (config : List (List UInt8 × List UInt8))
    (key : List UInt8) :
    List.lookup key (setEntries config ls) =
      (List.lookup key (ls.filterMap PropertyLine.entry).reverse).or (List.lookup key config) := by
  induction ls generalizing config with
  | nil => simp [setEntries]
  | cons l ls ih =>
    have hstep := ih (match l.entry with
      | some e => mapSet config e.1 e.2
      | none => config)
    simp only [setEntries, List.foldl_cons] at hstep ⊢
    rw [hstep, List.filterMap_cons]
    cases he : l.entry with
    | none => rfl
    | some e =>
      obtain ⟨k, v⟩ := e
      simp only [List.reverse_cons, List.lookup_append, Option.or_assoc, lookup_mapSet,
        List.lookup_cons]
      by_cases hk : key = k
      · subst hk
        simp
      · simp [hk, beq_false_of_ne hk, List.lookup_nil]

/-- `LoadPropertyFile` reads back every file of well-formed lines: property lines with or
without a comment after them, comment lines and blank lines. Each key gets the value of its last
property line, and a key no line sets is absent. -/
theorem loadPropertyFile_fileText {ls : List PropertyLine} (h : ∀ l ∈ ls, l.WellFormed) :
    ∃ config, loadPropertyFile (fileText ls) = some config ∧
      ∀ key, List.lookup key config =
        List.lookup key (ls.filterMap PropertyLine.entry).reverse := by
  refine ⟨setEntries [] ls, ?_, fun key => by simp [lookup_setEntries]⟩
  rw [loadPropertyFile, replaceComments_fileText h, splitOn_clean h, List.foldlM_append,
    foldlM_loadLine h]
  rfl

theorem loadPropertyFile_fileText_app :
    let ls := [PropertyLine.comment (bytes " database"),
      .property (bytes "db.host") (bytes "10.0.0.1"),
      .commented (bytes "db.port") (bytes "6379") (bytes " default"), .blank,
      .property (bytes "db.host") (bytes "10.0.0.2")]
    (∀ l ∈ ls, l.WellFormed) ∧ ∃ config, loadPropertyFile (fileText ls) = some config ∧
      ∀ key, List.lookup key config =
        List.lookup key (ls.filterMap PropertyLine.entry).reverse :=
  ⟨by decide, loadPropertyFile_fileText (by decide)⟩

theorem trim_replicate_append (n : Nat) (s : List UInt8) :
    trim (List.replicate n spaceByte ++ s) = trim s := by
  induction n with
  | zero => rfl
  | succ n ih =>
    rw [← ih, List.replicate_succ, List.cons_append, trim, trim, List.dropWhile_cons,
      if_pos (beq_self_eq_true spaceByte)]

/-- An indented property line is stored under a key cut from the untrimmed line at the byte
offset of the `=` in the trimmed one: the key keeps the indentation and loses as many bytes at
its end, so it is never the key written. -/
theorem loadPropertyFile_indented {n : Nat} (hn : 0 < n) {k v : List UInt8} (hk : KeyOk k)
    (hv : ValueOk v) :
    loadPropertyFile (List.replicate n spaceByte ++ k ++ equalsByte :: v ++ [newlineByte]) =
        some [((List.replicate n spaceByte ++ k).take k.length, v)] ∧
      (List.replicate n spaceByte ++ k).take k.length ≠ k := by
  have hline : hashByte ∉ List.replicate n spaceByte ++ k ++ equalsByte :: v ++ [newlineByte] := by
    simp [List.mem_replicate, hk.2.2.1, hv.1, show hashByte ≠ spaceByte by decide,
      show hashByte ≠ equalsByte by decide, show hashByte ≠ newlineByte by decide]
  have hnl : newlineByte ∉ List.replicate n spaceByte ++ k ++ equalsByte :: v := by
    simp [List.mem_replicate, hk.2.2.2.1, hv.2.1, show newlineByte ≠ spaceByte by decide,
      show newlineByte ≠ equalsByte by decide]
  have hclean : replaceComments false
      (List.replicate n spaceByte ++ k ++ equalsByte :: v ++ [newlineByte]) =
      (List.replicate n spaceByte ++ k ++ equalsByte :: v) ++ newlineByte :: [] := by
    simpa [replaceComments] using replaceComments_plain hline []
  have htrim : trim (List.replicate n spaceByte ++ k ++ equalsByte :: v) = k ++ equalsByte :: v := by
    rw [List.append_assoc, trim_replicate_append, trim_eq_self (head_entry hk) (getLast_entry hv)]
  refine ⟨?_, fun h => ?_⟩
  · rw [loadPropertyFile, hclean, splitOn_append_cons _ hnl]
    simp only [List.splitOn_nil, List.foldlM_cons, loadLine_trimmed hk htrim, List.foldlM_nil,
      Option.some_bind]
    rw [List.take_append_of_le_length (by simp)]
    rfl
  · obtain ⟨c, t, rfl⟩ := List.exists_cons_of_ne_nil hk.1
    obtain ⟨m, rfl⟩ := Nat.exists_eq_add_of_lt hn
    have hhead := congrArg List.head? h
    simp only [List.replicate_succ, List.cons_append, List.length_cons, List.take_succ_cons,
      List.head?_cons, Option.some.injEq] at hhead
    exact hk.2.2.2.2 (by rw [← hhead]; rfl)

theorem loadPropertyFile_indented_two :
    0 < 2 ∧ KeyOk (bytes "port") ∧ ValueOk (bytes "80") ∧
      loadPropertyFile
          (List.replicate 2 spaceByte ++ bytes "port" ++ equalsByte :: bytes "80" ++ [newlineByte]) =
        some [((List.replicate 2 spaceByte ++ bytes "port").take (bytes "port").length,
          bytes "80")] ∧
      (List.replicate 2 spaceByte ++ bytes "port").take (bytes "port").length ≠ bytes "port" :=
  have hk : KeyOk (bytes "port") := by decide
  have hv : ValueOk (bytes "80") := by decide
  ⟨by decide, hk, hv, loadPropertyFile_indented (by decide) hk hv⟩

theorem mem_of_regexpPropertyLine {s : List UInt8} (h : regexpPropertyLine s = true) :
    equalsByte ∈ s := by
  cases s with
  | nil => cases h
  | cons c t =>
    simp only [regexpPropertyLine, Bool.and_eq_true, List.elem_iff, List.contains] at h
    exact List.mem_cons_of_mem _ ((List.takeWhile_prefix _).subset h.2)

theorem loadLine_some (config : List (List UInt8 × List UInt8)) (line : List UInt8) :
    ∃ config', loadLine config line = some config' := by
  unfold loadLine
  dsimp only
  split
  · exact ⟨_, rfl⟩
  · next hmatch =>
    have hmem := mem_of_regexpPropertyLine (by simpa using hmatch)
    have hlt := List.indexOf_lt_length.mpr hmem
    have hle := length_trim_le line
    have hkey : sliceTo line (index (trim line) equalsByte) =
        some (line.take (List.indexOf equalsByte (trim line))) := by
      rw [sliceTo, index, if_pos hmem, if_pos ⟨by omega, by omega⟩, Int.toNat_ofNat]
    have hval : ∃ value, propertyValue (trim line) (index (trim line) equalsByte) =
        some value := by
      rw [propertyValue, index, if_pos hmem]
      split
      · exact ⟨_, by rw [sliceFrom, if_pos ⟨by omega, by omega⟩]⟩
      · exact ⟨_, rfl⟩
    obtain ⟨value, hval⟩ := hval
    exact ⟨_, by simp only [hkey, hval]; rfl⟩

/-- `LoadPropertyFile` never panics, whatever the content of the file. -/
theorem loadPropertyFile_never_panics (fileContent : List UInt8) :
    ∃ config, loadPropertyFile fileContent = some config := by
  rw [loadPropertyFile]
  generalize ((replaceComments false fileContent).splitOn newlineByte) = lines
  suffices ∀ config, ∃ config', lines.foldlM loadLine config = some config' from this []
  induction lines with
  | nil => exact fun config => ⟨config, rfl⟩
  | cons line lines ih =>
    intro config
    obtain ⟨c₁, h₁⟩ := loadLine_some config line
    obtain ⟨c₂, h₂⟩ := ih c₁
    exact ⟨c₂, by rw [List.foldlM_cons, h₁]; exact h₂⟩

end Matcha.Misc
