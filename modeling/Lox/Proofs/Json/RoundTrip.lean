import Lox.Proofs.Json.Numbers
import Lox.Proofs.Json.Texts

/-!
Reading back what was written. Main statement: the text of a value, in either layout, is read as the
value if its lists and records do not stand deeper inside each other than the reader allows, and is
too deep for the reader otherwise.
-/

set_option autoImplicit false

namespace Lox.Json

mutual

def chars (layout : Layout) (depth : Nat) : Json → List Char
  | .null => ['n', 'u', 'l', 'l']
  | .bool b => if b then ['t', 'r', 'u', 'e'] else ['f', 'a', 'l', 's', 'e']
  | .integer i => (toString i).toList
  | .real x => (realText x).toList
  | .text s => '"' :: closing s
  | .list [] => ['[', ']']
  | .list (item :: items) =>
    '[' :: ((layout.gap (depth + 1)).toList ++ (chars layout (depth + 1) item ++
      (itemsChars layout (depth + 1) items ++ ((layout.gap depth).toList ++ [']']))))
  | .record [] => ['{', '}']
  | .record ((key, value) :: fields) =>
    '{' :: ((layout.gap (depth + 1)).toList ++ ('"' :: (closing key ++ (layout.colon.toList ++
      (chars layout (depth + 1) value ++ (fieldsChars layout (depth + 1) fields ++
        ((layout.gap depth).toList ++ ['}'])))))))

def itemsChars (layout : Layout) (depth : Nat) : List Json → List Char
  | [] => []
  | item :: items =>
    ',' :: ((layout.gap depth).toList ++ (chars layout depth item ++ itemsChars layout depth items))

def fieldsChars (layout : Layout) (depth : Nat) : List (String × Json) → List Char
  | [] => []
  | (key, value) :: fields =>
    ',' :: ((layout.gap depth).toList ++ ('"' :: (closing key ++ (layout.colon.toList ++
      (chars layout depth value ++ fieldsChars layout depth fields)))))

end

mutual

theorem toList_writeOnto (layout : Layout) (depth : Nat) (out : String) :
    (j : Json) → (j.writeOnto layout depth out).toList = out.toList ++ chars layout depth j
  | .null | .bool true | .bool false => by simp [writeOnto, chars]
  | .integer i => by simp [writeOnto, chars]
  | .real x => by simp [writeOnto, chars]
  | .text s => by simp [writeOnto, chars, toList_escaped]
  | .list [] => by simp [writeOnto, chars]
  | .list (item :: items) => by
    simp [writeOnto, chars, toList_writeItems layout (depth + 1) _ items,
      toList_writeOnto layout (depth + 1) _ item]
  | .record [] => by simp [writeOnto, chars]
  | .record ((key, value) :: fields) => by
    simp [writeOnto, chars, toList_writeFields layout (depth + 1) _ fields,
      toList_writeOnto layout (depth + 1) _ value, toList_escaped]

theorem toList_writeItems (layout : Layout) (depth : Nat) (out : String) :
    (items : List Json) →
      (writeItems layout depth out items).toList = out.toList ++ itemsChars layout depth items
  | [] => by simp [writeItems, itemsChars]
  | item :: items => by
    simp [writeItems, itemsChars, toList_writeItems layout depth _ items,
      toList_writeOnto layout depth _ item]

theorem toList_writeFields (layout : Layout) (depth : Nat) (out : String) :
    (fields : List (String × Json)) →
      (writeFields layout depth out fields).toList = out.toList ++ fieldsChars layout depth fields
  | [] => by simp [writeFields, fieldsChars]
  | (key, value) :: fields => by
    simp [writeFields, fieldsChars, toList_writeFields layout depth _ fields,
      toList_writeOnto layout depth _ value, toList_escaped]

end

mutual

/-- The values whose texts can be read back: no integer is too long and no record has a key twice. -/
def IsReadable : Json → Prop
  | .integer i => (Decimal.digitsOf i.natAbs).length ≤ Text.mostIntegerDigits
  | .list items => AreReadable items
  | .record fields => (fields.map (·.1)).Nodup ∧ HoldReadable fields
  | _ => True

def AreReadable : List Json → Prop
  | [] => True
  | item :: items => IsReadable item ∧ AreReadable items

def HoldReadable : List (String × Json) → Prop
  | [] => True
  | (_, value) :: fields => IsReadable value ∧ HoldReadable fields

end

mutual

/-- Whether at most `limit` lists and records stand inside each other. -/
def fits : Json → Nat → Bool
  | .list _, 0 => false
  | .list items, limit + 1 => itemsFit items limit
  | .record _, 0 => false
  | .record fields, limit + 1 => fieldsFit fields limit
  | _, _ => true

def itemsFit : List Json → Nat → Bool
  | [], _ => true
  | item :: items, limit => item.fits limit && itemsFit items limit

def fieldsFit : List (String × Json) → Nat → Bool
  | [], _ => true
  | (_, value) :: fields, limit => value.fits limit && fieldsFit fields limit

end

@[simp] theorem fits_null (limit : Nat) : fits .null limit = true := by cases limit <;> rfl

@[simp] theorem fits_text (s : String) (limit : Nat) : fits (.text s) limit = true := by
  cases limit <;> rfl

@[simp] theorem fits_integer (i : Int) (limit : Nat) : fits (.integer i) limit = true := by
  cases limit <;> rfl

@[simp] theorem fits_real (x : Float) (limit : Nat) : fits (.real x) limit = true := by
  cases limit <;> rfl

@[simp] theorem fits_record_zero (fields : List (String × Json)) : fits (.record fields) 0 = false :=
  rfl

@[simp] theorem fits_record_succ (fields : List (String × Json)) (limit : Nat) :
    fits (.record fields) (limit + 1) = fieldsFit fields limit :=
  rfl

theorem Fields.set_of_not_mem {fields : Fields} {key : String} {value : Json}
    (h : key ∉ fields.map (·.1)) : fields.set key value = fields ++ [(key, value)] := by
  induction fields with
  | nil => rfl
  | cons field fields ih =>
    obtain ⟨k, v⟩ := field
    simp only [List.map_cons, List.mem_cons, not_or] at h
    simp [Fields.set, Ne.symm h.1, ih h.2]

theorem Fields.foldl_set (before : Fields) {fields : Fields}
    (h : ((before ++ fields).map (·.1)).Nodup) :
    fields.foldl (fun fields (key, value) => fields.set key value) before = before ++ fields := by
  induction fields generalizing before with
  | nil => simp
  | cons field fields ih =>
    obtain ⟨key, value⟩ := field
    have hnew : key ∉ before.map (·.1) := by
      simp only [List.map_append, List.map_cons, List.nodup_append] at h
      exact fun hmem => h.2.2 _ hmem _ List.mem_cons_self rfl
    simp only [List.foldl_cons, Fields.set_of_not_mem hnew]
    rw [ih _ (by simpa using h)]
    simp

theorem Fields.ofPairs_of_nodup {pairs : List (String × Json)} (h : (pairs.map (·.1)).Nodup) :
    Fields.ofPairs pairs = pairs :=
  Fields.foldl_set [] h

theorem isGap_of_mem_gap {layout : Layout} {depth : Nat} {c : Char}
    (h : c ∈ (layout.gap depth).toList) : isGap c = true := by
  cases layout with
  | line => simp [Layout.gap] at h
  | indented =>
    simp only [Layout.gap, String.toList_ofList, List.mem_cons] at h
    rcases h with rfl | hc
    · rfl
    · rw [List.eq_of_mem_replicate hc]
      rfl

theorem skipGap_cons {c : Char} (hc : isGap c = false) (rest : List Char) :
    skipGap (c :: rest) = c :: rest := by
  simp [skipGap, hc]

theorem skipGap_gap (layout : Layout) (depth : Nat) (rest : List Char) :
    skipGap ((layout.gap depth).toList ++ rest) = skipGap rest :=
  List.dropWhile_append_of_pos fun _ => isGap_of_mem_gap

theorem skipGap_colon (layout : Layout) (rest : List Char) :
    ∃ gap : List Char, layout.colon.toList ++ rest = ':' :: (gap ++ rest) ∧
      skipGap (gap ++ rest) = skipGap rest := by
  cases layout with
  | line => exact ⟨[], by simp [Layout.colon], rfl⟩
  | indented => exact ⟨[' '], by simp [Layout.colon], by simp [skipGap, isGap]⟩

/-- A character that begins a value. -/
def BeginsValue (c : Char) : Prop := isGap c = false ∧ c ≠ ']' ∧ c ≠ '}'

theorem readValue_of_not_beginsValue (turns limit : Nat) {c : Char} (h : ¬ BeginsValue c)
    (cs : List Char) : readValue turns limit (c :: cs) = .error .malformed := by
  have hc : c = ' ' ∨ c = '\t' ∨ c = '\n' ∨ c = '\r' ∨ c = ']' ∨ c = '}' := by
    simp only [BeginsValue, isGap] at h
    grind
  rcases hc with rfl | rfl | rfl | rfl | rfl | rfl <;> simp [readValue, readNumber, isDigit]

theorem beginsValue_of_readValue {turns limit : Nat} {cs : List Char} {j : Json} {rest : List Char}
    (h : readValue turns limit cs = .ok (j, rest)) : ∃ c cs', cs = c :: cs' ∧ BeginsValue c := by
  cases cs with
  | nil => simp [readValue, readNumber] at h
  | cons c cs =>
    by_cases hc : BeginsValue c
    · exact ⟨c, cs, rfl, hc⟩
    · rw [readValue_of_not_beginsValue turns limit hc cs] at h
      cases h

theorem endsNumber_nil : EndsNumber [] := fun _ h => by cases h

theorem beginsValue_chars (layout : Layout) (depth : Nat) {j : Json} (hj : j.IsReadable) :
    ∃ c cs, chars layout depth j = c :: cs ∧ BeginsValue c := by
  cases j with
  | null => exact ⟨_, _, rfl, by decide, by decide, by decide⟩
  | bool b => cases b <;> exact ⟨_, _, rfl, by decide, by decide, by decide⟩
  | integer i =>
    have hread := readValue_integer 0 0 hj endsNumber_nil
    rw [List.append_nil] at hread
    exact beginsValue_of_readValue hread
  | real x =>
    have hread := readValue_real 0 0 x endsNumber_nil
    rw [List.append_nil] at hread
    exact beginsValue_of_readValue hread
  | text s => exact ⟨_, _, rfl, by decide, by decide, by decide⟩
  | list items => cases items <;> exact ⟨_, _, rfl, by decide, by decide, by decide⟩
  | record fields => cases fields <;> exact ⟨_, _, rfl, by decide, by decide, by decide⟩

theorem endsNumber_cons {c : Char} (h : c ∈ [',', ']', '}', '\n']) (rest : List Char) :
    EndsNumber (c :: rest) := by
  have hends : ∀ c ∈ [',', ']', '}', '\n'], isDigit c = false ∧ c ∉ ['.', 'e', 'E'] := by
    simp [isDigit]
  intro k hk
  obtain rfl : c = k := Option.some.inj hk
  exact hends c h

theorem endsNumber_close (layout : Layout) (depth : Nat) {c : Char} (h : c ∈ [']', '}'])
    (rest : List Char) : EndsNumber ((layout.gap depth).toList ++ c :: rest) := by
  cases layout with
  | line =>
    have hc : c = ']' ∨ c = '}' := by simpa using h
    rcases hc with rfl | rfl <;> exact endsNumber_cons (by simp) rest
  | indented =>
    simp only [Layout.gap, String.toList_ofList, List.cons_append]
    exact endsNumber_cons (by simp) _

theorem endsNumber_items (layout : Layout) (depth depth' : Nat) (items : List Json)
    (rest : List Char) :
    EndsNumber (itemsChars layout depth items ++ ((layout.gap depth').toList ++ ']' :: rest)) := by
  cases items with
  | nil => exact endsNumber_close layout depth' (by simp) rest
  | cons item items => exact endsNumber_cons (by simp) _

theorem endsNumber_fields (layout : Layout) (depth depth' : Nat) (fields : List (String × Json))
    (rest : List Char) :
    EndsNumber (fieldsChars layout depth fields ++ ((layout.gap depth').toList ++ '}' :: rest)) := by
  cases fields with
  | nil => exact endsNumber_close layout depth' (by simp) rest
  | cons field fields => exact endsNumber_cons (by simp) _

theorem readValue_list {turns limit : Nat} {rest cs : List Char} {c : Char}
    (h : skipGap rest = c :: cs) (hc : c ≠ ']') :
    readValue turns (limit + 1) ('[' :: rest) =
      match readValue turns limit (c :: cs) with
      | .error e => .error e
      | .ok (j, rest) =>
        match readItems (readValue turns limit) turns [j] rest with
        | .error e => .error e
        | .ok (items, rest) => .ok (.list items, rest) := by
  rw [readValue]
  simp only [h]
  split
  next heq => injection heq with hc'; exact absurd hc' hc
  next => rfl

theorem readValue_record {turns limit : Nat} {rest cs : List Char} {c : Char}
    (h : skipGap rest = c :: cs) (hc : c ≠ '}') :
    readValue turns (limit + 1) ('{' :: rest) =
      match readField turns (readValue turns limit) (c :: cs) with
      | .error e => .error e
      | .ok (f, rest) =>
        match readFields (readField turns (readValue turns limit)) turns [f] rest with
        | .error e => .error e
        | .ok (fields, rest) => .ok (.record fields, rest) := by
  rw [readValue]
  simp only [h]
  split
  next heq => injection heq with hc'; exact absurd hc' hc
  next => rfl

theorem length_items_le (layout : Layout) (depth : Nat) (items : List Json) :
    items.length ≤ (itemsChars layout depth items).length := by
  induction items with
  | nil => simp
  | cons item items ih =>
    simp only [itemsChars, List.length_cons, List.length_append]
    omega

theorem length_fields_le (layout : Layout) (depth : Nat) (fields : List (String × Json)) :
    fields.length ≤ (fieldsChars layout depth fields).length := by
  induction fields with
  | nil => simp
  | cons field fields ih =>
    obtain ⟨key, value⟩ := field
    simp only [fieldsChars, List.length_cons, List.length_append]
    omega

/-- What a reader makes of the text of something: the thing and the rest, or it is too deep. -/
def readAs {α : Type} (fits : Bool) (a : α) (rest : List Char) : Read α :=
  if fits then .ok (a, rest) else .error .tooDeep

theorem readField_chars {layout : Layout} {turns depth limit : Nat} {key : String} {value : Json}
    {rest : List Char} (hv : value.IsReadable) (hkey : (closing key).length ≤ turns)
    (hread : readValue turns limit (chars layout depth value ++ rest) =
      readAs (value.fits limit) value rest) :
    readField turns (readValue turns limit)
        ('"' :: (closing key ++ (layout.colon.toList ++ (chars layout depth value ++ rest)))) =
      readAs (value.fits limit) (key, value) rest := by
  obtain ⟨c, cs, hcs, hgap, -, -⟩ := beginsValue_chars layout depth hv
  obtain ⟨gap, hcolon, hskip⟩ := skipGap_colon layout (chars layout depth value ++ rest)
  have hvalue : skipGap (chars layout depth value ++ rest) = chars layout depth value ++ rest := by
    rw [hcs, List.cons_append, skipGap_cons hgap]
  unfold readField
  simp only
  rw [readText_closing key _ hkey, hcolon]
  simp only [skipGap_cons (show isGap ':' = false from rfl), hskip, hvalue, hread]
  cases value.fits limit <;> rfl

mutual

theorem readValue_chars {layout : Layout} {turns depth : Nat} : (j : Json) → j.IsReadable →
    (chars layout depth j).length ≤ turns → (limit : Nat) → (rest : List Char) →
    EndsNumber rest →
      readValue turns limit (chars layout depth j ++ rest) = readAs (j.fits limit) j rest
  | .null, _, _, limit, rest, _ => by simp [chars, readValue, readAs, fits]
  | .bool true, _, _, limit, rest, _ => by simp [chars, readValue, readAs, fits]
  | .bool false, _, _, limit, rest, _ => by simp [chars, readValue, readAs, fits]
  | .integer i, hi, _, limit, rest, he => by
    simpa [chars, readAs, fits] using readValue_integer turns limit hi he
  | .real x, _, _, limit, rest, he => by
    simpa [chars, readAs, fits] using readValue_real turns limit x he
  | .text s, _, ht, limit, rest, _ => by
    have hlen : (closing s).length ≤ turns := by
      simp only [chars, List.length_cons] at ht
      omega
    have hread := readText_closing s rest hlen
    simp [chars, readValue, hread, readAs, fits, Except.map]
  | .list items, _, _, 0, rest, _ => by
    cases items <;> simp [chars, readValue, readAs, fits]
  | .list [], _, _, limit + 1, rest, _ => by
    simp [chars, readValue, skipGap, isGap, readAs, fits, itemsFit]
  | .list (item :: items), ⟨hi, his⟩, ht, limit + 1, rest, _ => by
    have hcount := length_items_le layout (depth + 1) items
    simp only [chars, List.length_cons, List.length_append] at ht
    obtain ⟨c, cs, hcs, hgap, hclose, -⟩ := beginsValue_chars layout (depth + 1) hi
    have hturn : (chars layout (depth + 1) item).length ≤ turns := by omega
    have hturns : (itemsChars layout (depth + 1) items).length ≤ turns := by omega
    have hitem := readValue_chars item hi hturn limit _
      (endsNumber_items layout (depth + 1) depth items rest)
    have hitems := readItems_chars items his hturns limit turns depth [item] rest (by omega)
    simp only [chars, List.cons_append, List.append_assoc, List.nil_append]
    rw [readValue_list (by rw [skipGap_gap, hcs, List.cons_append, skipGap_cons hgap]) hclose,
      ← List.cons_append, ← hcs, hitem]
    cases hf : item.fits limit with
    | false => simp [readAs, fits, itemsFit, hf]
    | true =>
      simp only [readAs, ↓reduceIte]
      rw [hitems]
      cases hfs : itemsFit items limit <;> simp [readAs, fits, itemsFit, hf, hfs]
  | .record fields, _, _, 0, rest, _ => by
    cases fields <;> simp [chars, readValue, readAs, fits]
  | .record [], _, _, limit + 1, rest, _ => by
    simp [chars, readValue, skipGap, isGap, readAs, fits, fieldsFit]
  | .record ((key, value) :: fields), ⟨hd, hv, hvs⟩, ht, limit + 1, rest, _ => by
    have hcount := length_fields_le layout (depth + 1) fields
    simp only [chars, List.length_cons, List.length_append] at ht
    have hkey : (closing key).length ≤ turns := by omega
    have hturn : (chars layout (depth + 1) value).length ≤ turns := by omega
    have hturns : (fieldsChars layout (depth + 1) fields).length ≤ turns := by omega
    have hvalue := readValue_chars value hv hturn limit _
      (endsNumber_fields layout (depth + 1) depth fields rest)
    have hfields := readFields_chars fields hvs hturns limit turns depth [(key, value)] rest
      (by omega) hd
    simp only [chars, List.cons_append, List.append_assoc, List.nil_append]
    rw [readValue_record (by rw [skipGap_gap, skipGap_cons (show isGap '"' = false from rfl)])
      (by decide), readField_chars hv hkey hvalue]
    cases hf : value.fits limit with
    | false => simp [readAs, fits, fieldsFit, hf]
    | true =>
      simp only [readAs, ↓reduceIte]
      rw [hfields]
      cases hfs : fieldsFit fields limit <;> simp [readAs, fits, fieldsFit, hf, hfs]

theorem readItems_chars {layout : Layout} {turns depth : Nat} : (items : List Json) →
    AreReadable items → (itemsChars layout depth items).length ≤ turns → (limit : Nat) →
    (n depth' : Nat) → (done : List Json) → (rest : List Char) → items.length < n →
      readItems (readValue turns limit) n done
        (itemsChars layout depth items ++ ((layout.gap depth').toList ++ ']' :: rest)) =
          readAs (itemsFit items limit) (done.reverse ++ items) rest
  | [], _, _, limit, n + 1, depth', done, rest, _ => by
    simp [itemsChars, readItems, skipGap_gap, skipGap_cons, isGap, readAs, itemsFit]
  | item :: items, ⟨hi, his⟩, ht, limit, n + 1, depth', done, rest, hn => by
    simp only [itemsChars, List.length_cons, List.length_append] at ht
    obtain ⟨c, cs, hcs, hgap, -, -⟩ := beginsValue_chars layout depth hi
    have hturn : (chars layout depth item).length ≤ turns := by omega
    have hturns : (itemsChars layout depth items).length ≤ turns := by omega
    have hitem := readValue_chars item hi hturn limit _
      (endsNumber_items layout depth depth' items rest)
    have hitems := readItems_chars items his hturns limit n depth' (item :: done) rest
      (by simpa using hn)
    simp only [itemsChars, List.cons_append, List.append_assoc, readItems,
      skipGap_cons (show isGap ',' = false from rfl), skipGap_gap]
    rw [hcs, List.cons_append, skipGap_cons hgap, ← List.cons_append, ← hcs, hitem]
    cases hf : item.fits limit with
    | false => simp [readAs, itemsFit, hf]
    | true =>
      simp only [readAs, ↓reduceIte]
      rw [hitems]
      simp [readAs, itemsFit, hf]

theorem readFields_chars {layout : Layout} {turns depth : Nat} : (fields : List (String × Json)) →
    HoldReadable fields → (fieldsChars layout depth fields).length ≤ turns → (limit : Nat) →
    (n depth' : Nat) → (done : List (String × Json)) → (rest : List Char) → fields.length < n →
    ((done.reverse ++ fields).map (·.1)).Nodup →
      readFields (readField turns (readValue turns limit)) n done
        (fieldsChars layout depth fields ++ ((layout.gap depth').toList ++ '}' :: rest)) =
          readAs (fieldsFit fields limit) (done.reverse ++ fields) rest
  | [], _, _, limit, n + 1, depth', done, rest, _, hd => by
    rw [List.append_nil] at hd
    simp [fieldsChars, readFields, skipGap_gap, skipGap_cons, isGap, readAs, fieldsFit,
      Fields.ofPairs_of_nodup hd]
  | (key, value) :: fields, ⟨hv, hvs⟩, ht, limit, n + 1, depth', done, rest, hn, hd => by
    simp only [fieldsChars, List.length_cons, List.length_append] at ht
    have hkey : (closing key).length ≤ turns := by omega
    have hturn : (chars layout depth value).length ≤ turns := by omega
    have hturns : (fieldsChars layout depth fields).length ≤ turns := by omega
    have hvalue := readValue_chars value hv hturn limit _
      (endsNumber_fields layout depth depth' fields rest)
    have hfields := readFields_chars fields hvs hturns limit n depth' ((key, value) :: done) rest
      (by simpa using hn) (by simpa using hd)
    simp only [fieldsChars, List.cons_append, List.append_assoc, readFields,
      skipGap_cons (show isGap ',' = false from rfl), skipGap_gap,
      skipGap_cons (show isGap '"' = false from rfl)]
    rw [readField_chars hv hkey hvalue]
    cases hf : value.fits limit with
    | false => simp [readAs, fieldsFit, hf]
    | true =>
      simp only [readAs, ↓reduceIte]
      rw [hfields]
      simp [readAs, fieldsFit, hf]

end

end Lox.Json
