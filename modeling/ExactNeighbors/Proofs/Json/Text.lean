import ExactNeighbors.Json.Reader
import ExactNeighbors.Proofs.Json.Token

set_option autoImplicit false

/-! # Reading back a value

A value that is written, compactly or over several lines, is read as that value again, provided its
own numerals and strings are scanned back (`Json.Clean`). Two things are shown of it, each by
recursion on the value with its elements and members: either text is spelled by the tokens of the
value, and the machine that reads these tokens ends with the value, whatever containers were open
before. -/

namespace ExactNeighbors.Json

/-- The numerals and strings in a value are scanned back. -/
def Clean (v : Json) : Prop := ∀ t ∈ v.tokens, t.Clean

/-- The numerals and strings in a value are those that the grammar knows, which is all that its text
    may be held to as long as nobody asks what they mean. -/
def WellFormed (v : Json) : Prop := ∀ t ∈ v.tokens, t.WellFormed

theorem WellFormed.clean {v : Json} (wf : v.WellFormed) : v.Clean := fun t ht => (wf t ht).clean

theorem clean_array_iff {items : List Json} :
    (array items).Clean ↔ ∀ t ∈ itemTokens items, t.Clean := by
  have hopen : Token.openArray.Clean := Token.clean_fixed nofun nofun
  have hclose : Token.closeArray.Clean := Token.clean_fixed nofun nofun
  rw [Clean, tokens, List.forall_mem_cons, List.forall_mem_append, List.forall_mem_singleton,
    and_iff_right hopen, and_iff_left hclose]

theorem clean_object_iff {members : List (Quoted × Json)} :
    (object members).Clean ↔ ∀ t ∈ memberTokens members, t.Clean := by
  have hopen : Token.openObject.Clean := Token.clean_fixed nofun nofun
  have hclose : Token.closeObject.Clean := Token.clean_fixed nofun nofun
  rw [Clean, tokens, List.forall_mem_cons, List.forall_mem_append, List.forall_mem_singleton,
    and_iff_right hopen, and_iff_left hclose]

theorem itemTokens_cons (v w : Json) (vs : List Json) :
    itemTokens (v :: w :: vs) = v.tokens ++ .comma :: itemTokens (w :: vs) := rfl

theorem memberTokens_cons (name : Quoted) (v : Json) (m : Quoted × Json)
    (ms : List (Quoted × Json)) :
    memberTokens ((name, v) :: m :: ms) =
      .string name :: .colon :: (v.tokens ++ .comma :: memberTokens (m :: ms)) := rfl

/-! ## Marks and blanks -/

namespace Token

variable {ts : List Token} {cs : List Char}

/-- What may stand behind a value: a text that these tokens spell and that continues no numeral. -/
structure Follows (ts : List Token) (cs : List Char) : Prop where
  spells : Spells ts cs
  ends : Numeral.Ends cs

/-- A token of one character that is part of no numeral may stand behind a value. -/
theorem Spells.mark (h : Spells ts cs) (t : Token) {c : Char} (hchars : t.chars = [c])
    (fixed : (∀ n, t ≠ .number n) ∧ ∀ s, t ≠ .string s)
    (ends : Digit.ofChar? c = none ∧ c ≠ '.' ∧ c ≠ 'e' ∧ c ≠ 'E') :
    Follows (t :: ts) (c :: cs) where
  spells := by
    have htoken := h.token (clean_fixed fixed.1 fixed.2) fun n hn => absurd hn (fixed.1 n)
    rwa [hchars] at htoken
  ends := Numeral.ends_cons cs ends

theorem Spells.comma (h : Spells ts cs) : Follows (.comma :: ts) (',' :: cs) :=
  h.mark .comma rfl ⟨nofun, nofun⟩ (by decide)

theorem Spells.colon (h : Spells ts cs) : Follows (.colon :: ts) (':' :: cs) :=
  h.mark .colon rfl ⟨nofun, nofun⟩ (by decide)

theorem Spells.openArray (h : Spells ts cs) : Follows (.openArray :: ts) ('[' :: cs) :=
  h.mark .openArray rfl ⟨nofun, nofun⟩ (by decide)

theorem Spells.closeArray (h : Spells ts cs) : Follows (.closeArray :: ts) (']' :: cs) :=
  h.mark .closeArray rfl ⟨nofun, nofun⟩ (by decide)

theorem Spells.openObject (h : Spells ts cs) : Follows (.openObject :: ts) ('\x7b' :: cs) :=
  h.mark .openObject rfl ⟨nofun, nofun⟩ (by decide)

theorem Spells.closeObject (h : Spells ts cs) : Follows (.closeObject :: ts) ('\x7d' :: cs) :=
  h.mark .closeObject rfl ⟨nofun, nofun⟩ (by decide)

/-- The name of a member, with the colon and what follows. -/
theorem Spells.named (h : Spells ts cs) {name : Quoted} (clean : (string name).Clean) :
    Spells (.string name :: .colon :: ts) (name.chars ++ ':' :: cs) :=
  .token clean nofun h.colon.spells

theorem Spells.space (h : Spells ts cs) : Spells ts (' ' :: cs) := .blank rfl h

theorem Spells.newLine (h : Spells ts cs) (level : Nat) :
    Follows ts (Json.newLine level ++ cs) where
  spells := by
    have hspaces (n : Nat) : Spells ts (List.replicate n ' ' ++ cs) := by
      induction n with
      | zero => exact h
      | succ n ih => exact ih.space
    exact .blank rfl (hspaces (2 * level))
  ends := Numeral.ends_cons _ (by decide)

end Token

open Token (Spells Follows)

/-! ## The texts of a value -/

mutual

/-- The compact text is spelled by the tokens of the value. -/
theorem spells_compact (v : Json) (clean : v.Clean) {ts : List Token} {cs : List Char}
    (h : Follows ts cs) : Spells (v.tokens ++ ts) (v.tokens.flatMap Token.chars ++ cs) := by
  match v with
  | .null | .bool b | .string s | .number n =>
      rw [tokens, List.flatMap_singleton]
      exact .token (clean _ List.mem_cons_self) (fun _ _ => h.ends) h.spells
  | .array items =>
      have hitems := spells_compactItems items (clean_array_iff.1 clean) h.spells.closeArray
      simpa [tokens, Token.chars] using hitems.openArray.spells
  | .object members =>
      have hmembers := spells_compactMembers members (clean_object_iff.1 clean)
        h.spells.closeObject
      simpa [tokens, Token.chars] using hmembers.openObject.spells

theorem spells_compactItems (vs : List Json) (clean : ∀ t ∈ itemTokens vs, t.Clean)
    {ts : List Token} {cs : List Char} (h : Follows ts cs) :
    Spells (itemTokens vs ++ ts) ((itemTokens vs).flatMap Token.chars ++ cs) := by
  match vs with
  | [] => exact h.spells
  | [v] => exact spells_compact v clean h
  | v :: w :: vs =>
      rw [itemTokens_cons, List.forall_mem_append, List.forall_mem_cons] at clean
      obtain ⟨hv, -, hvs⟩ := clean
      have hothers := spells_compactItems (w :: vs) hvs h
      have hall := spells_compact v hv hothers.comma
      simpa [itemTokens_cons, Token.chars] using hall

theorem spells_compactMembers (ms : List (Quoted × Json)) (clean : ∀ t ∈ memberTokens ms, t.Clean)
    {ts : List Token} {cs : List Char} (h : Follows ts cs) :
    Spells (memberTokens ms ++ ts) ((memberTokens ms).flatMap Token.chars ++ cs) := by
  match ms with
  | [] => exact h.spells
  | [(name, v)] =>
      rw [memberTokens, List.forall_mem_cons, List.forall_mem_cons] at clean
      obtain ⟨hname, -, hv⟩ := clean
      have hvalue := spells_compact v hv h
      simpa [memberTokens, Token.chars] using hvalue.named hname
  | (name, v) :: m :: ms =>
      rw [memberTokens_cons, List.forall_mem_cons, List.forall_mem_cons, List.forall_mem_append,
        List.forall_mem_cons] at clean
      obtain ⟨hname, -, hv, -, hms⟩ := clean
      have hothers := spells_compactMembers (m :: ms) hms h
      have hvalue := spells_compact v hv hothers.comma
      simpa [memberTokens_cons, Token.chars] using hvalue.named hname

end

theorem prettyItems_cons (level : Nat) (v w : Json) (vs : List Json) :
    prettyItems level (v :: w :: vs) =
      newLine level ++ prettyChars level v ++ ',' :: prettyItems level (w :: vs) := rfl

theorem prettyMembers_cons (level : Nat) (name : Quoted) (v : Json) (m : Quoted × Json)
    (ms : List (Quoted × Json)) :
    prettyMembers level ((name, v) :: m :: ms) =
      newLine level ++ name.chars ++ ':' :: ' ' :: prettyChars level v ++
        ',' :: prettyMembers level (m :: ms) := rfl

mutual

/-- The text with a line for each element or member is spelled by the same tokens. -/
theorem spells_pretty (level : Nat) (v : Json) (clean : v.Clean) {ts : List Token} {cs : List Char}
    (h : Follows ts cs) : Spells (v.tokens ++ ts) (prettyChars level v ++ cs) := by
  match v with
  | .null | .bool b | .string s | .number n | .array [] | .object [] =>
      exact spells_compact _ clean h
  | .array (v :: vs) =>
      have hclose := h.spells.closeArray.spells.newLine level
      have hitems := spells_prettyItems (level + 1) (v :: vs) (clean_array_iff.1 clean) hclose
      simpa [tokens, prettyChars] using hitems.openArray.spells
  | .object (m :: ms) =>
      have hclose := h.spells.closeObject.spells.newLine level
      have hmembers := spells_prettyMembers (level + 1) (m :: ms) (clean_object_iff.1 clean) hclose
      simpa [tokens, prettyChars] using hmembers.openObject.spells

theorem spells_prettyItems (level : Nat) (vs : List Json) (clean : ∀ t ∈ itemTokens vs, t.Clean)
    {ts : List Token} {cs : List Char} (h : Follows ts cs) :
    Spells (itemTokens vs ++ ts) (prettyItems level vs ++ cs) := by
  match vs with
  | [] => exact h.spells
  | [v] =>
      have hvalue := spells_pretty level v clean h
      simpa [itemTokens, prettyItems] using (hvalue.newLine level).spells
  | v :: w :: vs =>
      rw [itemTokens_cons, List.forall_mem_append, List.forall_mem_cons] at clean
      obtain ⟨hv, -, hvs⟩ := clean
      have hothers := spells_prettyItems level (w :: vs) hvs h
      have hvalue := spells_pretty level v hv hothers.comma
      simpa [itemTokens_cons, prettyItems_cons] using (hvalue.newLine level).spells

theorem spells_prettyMembers (level : Nat) (ms : List (Quoted × Json))
    (clean : ∀ t ∈ memberTokens ms, t.Clean) {ts : List Token} {cs : List Char}
    (h : Follows ts cs) : Spells (memberTokens ms ++ ts) (prettyMembers level ms ++ cs) := by
  match ms with
  | [] => exact h.spells
  | [(name, v)] =>
      rw [memberTokens, List.forall_mem_cons, List.forall_mem_cons] at clean
      obtain ⟨hname, -, hv⟩ := clean
      have hvalue := (spells_pretty level v hv h).space
      have hmember := hvalue.named hname
      simpa [memberTokens, prettyMembers] using (hmember.newLine level).spells
  | (name, v) :: m :: ms =>
      rw [memberTokens_cons, List.forall_mem_cons, List.forall_mem_cons, List.forall_mem_append,
        List.forall_mem_cons] at clean
      obtain ⟨hname, -, hv, -, hms⟩ := clean
      have hothers := spells_prettyMembers level (m :: ms) hms h
      have hvalue := (spells_pretty level v hv hothers.comma).space
      have hmember := hvalue.named hname
      simpa [memberTokens_cons, prettyMembers_cons] using (hmember.newLine level).spells

end

/-! ## The machine -/

/-- No value starts with the mark that ends an empty array. -/
theorem tokens_start (v : Json) : ∃ t ts, v.tokens = t :: ts ∧
    ∀ outer, State.next (.arrayStart outer) t = State.next (.value (.array [] :: outer)) t := by
  cases v <;> exact ⟨_, _, rfl, fun _ => rfl⟩

mutual

/-- Where a value must follow, its tokens complete it. -/
theorem run_tokens (v : Json) (outer : List Frame) :
    v.tokens.foldlM State.next (.value outer) = some (.complete v outer) := by
  match v with
  | .null | .bool b | .string s | .number n => rfl
  | .array [] => rfl
  | .array (v :: vs) =>
      have hitems := run_itemTokens (v :: vs) (List.cons_ne_nil _ _) [] outer
      obtain ⟨t, ts, hts, hstart⟩ : ∃ t ts, itemTokens (v :: vs) ++ [.closeArray] = t :: ts ∧
          State.next (.arrayStart outer) t = State.next (.value (.array [] :: outer)) t := by
        obtain ⟨t, ts, hts, hstart⟩ := tokens_start v
        cases vs <;> simp [itemTokens, hts, hstart]
      rw [hts, List.foldlM_cons, ← hstart] at hitems
      rw [tokens, hts]
      exact hitems
  | .object [] => rfl
  | .object ((name, v) :: ms) =>
      have hmembers := run_memberTokens ((name, v) :: ms) (List.cons_ne_nil _ _) [] outer
      -- The first name is read as every further name is.
      cases ms <;> exact hmembers

theorem run_itemTokens (vs : List Json) (hne : vs ≠ []) (before : List Json)
    (outer : List Frame) :
    (itemTokens vs ++ [Token.closeArray]).foldlM State.next (.value (.array before :: outer)) =
      some (.complete (.array (before.reverse ++ vs)) outer) := by
  match vs with
  | [] => exact absurd rfl hne
  | [v] =>
      rw [List.foldlM_append, itemTokens, run_tokens v]
      simp [State.next]
  | v :: w :: vs =>
      have hothers := run_itemTokens (w :: vs) (List.cons_ne_nil _ _) (v :: before) outer
      rw [itemTokens_cons, List.append_assoc, List.foldlM_append, run_tokens v]
      simpa [State.next] using hothers

theorem run_memberTokens (ms : List (Quoted × Json)) (hne : ms ≠ [])
    (before : List (Quoted × Json)) (outer : List Frame) :
    (memberTokens ms ++ [Token.closeObject]).foldlM State.next (.name before outer) =
      some (.complete (.object (before.reverse ++ ms)) outer) := by
  match ms with
  | [] => exact absurd rfl hne
  | [(name, v)] =>
      have hvalue := run_tokens v (.object before name :: outer)
      simp [memberTokens, State.next, hvalue]
  | (name, v) :: m :: ms =>
      have hvalue := run_tokens v (.object before name :: outer)
      have hothers := run_memberTokens (m :: ms) (List.cons_ne_nil _ _) ((name, v) :: before) outer
      simpa [memberTokens_cons, State.next, hvalue] using hothers

end

/-- The tokens of a value are read as the value. -/
theorem ofTokens?_tokens (v : Json) : ofTokens? v.tokens = some v := by
  rw [ofTokens?, run_tokens]

/-- **A value written compactly is read back.** -/
theorem read?_compact {v : Json} (clean : v.Clean) : read? v.compact = some v := by
  have hspells := spells_compact v clean ⟨.nil, Numeral.ends_nil⟩
  rw [List.append_nil, List.append_nil] at hspells
  rw [read?, compact, String.toList_ofList, hspells.scan_eq, Option.bind_some, ofTokens?_tokens]

/-- **A value written over several lines is read back.** -/
theorem read?_pretty {v : Json} (clean : v.Clean) : read? v.pretty = some v := by
  have hspells := spells_pretty 0 v clean ⟨.nil, Numeral.ends_nil⟩
  rw [List.append_nil, List.append_nil] at hspells
  rw [read?, pretty, String.toList_ofList, hspells.scan_eq, Option.bind_some, ofTokens?_tokens]

end ExactNeighbors.Json
