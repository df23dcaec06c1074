import Lox.Proofs.Node.Records

/-!
Records that hold trees, however they are written. Main statement: the record that a loaded tree is stored
as loads as the same tree, so loading and storing turn every record that holds a tree into a normal one.
-/

set_option autoImplicit false

namespace Lox

theorem bind_eq_ok_iff {ε α β : Type} {x : Except ε α} {f : α → Except ε β} {b : β} :
    (x >>= f) = .ok b ↔ ∃ a, x = .ok a ∧ f a = .ok b := by
  cases x with
  | error e => exact ⟨nofun, nofun⟩
  | ok a => simp

theorem pure_eq_ok_iff {ε α : Type} {a b : α} : (pure a : Except ε α) = .ok b ↔ a = b :=
  ⟨Except.ok.inj, congrArg _⟩

theorem map_eq_ok_iff {ε α β : Type} {f : α → β} {x : Except ε α} {b : β} :
    f <$> x = .ok b ↔ ∃ a, x = .ok a ∧ f a = b := by
  cases x with
  | error e => exact ⟨nofun, nofun⟩
  | ok a => exact ⟨fun h => ⟨a, rfl, Except.ok.inj h⟩, fun ⟨_, ha, hb⟩ => by cases ha; cases hb; rfl⟩

theorem exists_of_mapM {ε α β : Type} {load : α → Except ε β} {items : List α} {loaded : List β}
    (h : items.mapM load = .ok loaded) : ∀ b ∈ loaded, ∃ a, load a = .ok b := by
  induction items generalizing loaded with
  | nil =>
    cases h
    exact nofun
  | cons item items ih =>
    rw [List.mapM_cons] at h
    obtain ⟨b, hb, h⟩ := bind_eq_ok_iff.1 h
    obtain ⟨bs, hbs, h⟩ := bind_eq_ok_iff.1 h
    cases h
    exact List.forall_mem_cons.2 ⟨⟨item, hb⟩, ih hbs⟩

namespace Node

theorem exists_of_itemsOf {load : Json → Except LoadError Node} {j : Json} {ns : List Node}
    (h : itemsOf load j = .ok ns) : ∀ n ∈ ns, ∃ j, load j = .ok n := by
  unfold itemsOf at h
  split at h
  · exact exists_of_mapM h
  · split at h <;> cases h
    exact nofun
  · split at h <;> cases h
    exact nofun
  · cases h

/-- Whatever a field holds, a child is there because it was loaded from something. -/
theorem exists_of_ofFields {load : Json → Except LoadError Node} {fields : Json.Fields} {n : Node}
    (h : ofFields load fields = .ok n) : ∀ c ∈ n.children, ∃ j, load j = .ok c := by
  unfold ofFields at h
  extract_lets child child? items at h
  have hchild : ∀ {key c}, child key = .ok c → ∃ j, load j = .ok c := fun h => by
    obtain ⟨j, -, hj⟩ := bind_eq_ok_iff.1 h
    exact ⟨j, hj⟩
  have hchild? : ∀ {key c}, child? key = .ok c → ∃ j, load j = .ok c := fun h => ⟨_, h⟩
  have hitems : ∀ {key cs}, items key = .ok cs → ∀ c ∈ cs, ∃ j, load j = .ok c := fun h => by
    obtain ⟨j, -, hj⟩ := bind_eq_ok_iff.1 h
    exact exists_of_itemsOf hj
  clear_value child child? items
  -- One case a form; in each `h` lists the fields that were loaded.
  split at h
  all_goals simp only [bind_eq_ok_iff, pure_eq_ok_iff, reduceCtorEq] at h
  all_goals grind [children]

/-- A loaded tree is no higher than the frames that loaded it. -/
theorem loads_of_ofJson {frames : Nat} {j : Json} {n : Node} (h : ofJson frames j = .ok n) :
    loads frames n = true := by
  induction frames generalizing j n with
  | zero => cases h
  | succ frames ih =>
    cases j with
    | null =>
      cases h
      rfl
    | record fields =>
      unfold ofJson at h
      split at h
      next =>
        obtain ⟨t, -, rfl⟩ := map_eq_ok_iff.1 h
        rfl
      next =>
        refine List.all_eq_true.2 fun c hc => ?_
        obtain ⟨j, hj⟩ := exists_of_ofFields h c hc
        exact ih hj
    | _ => cases h

theorem ofJson_toJson_of_ofJson {frames : Nat} {j : Json} {n : Node} (h : ofJson frames j = .ok n) :
    ofJson frames n.toJson = .ok n := ofJson_toJson (loads_of_ofJson h)

/-- The record that a tree is stored as once it was loaded. -/
def normal (frames : Nat) (j : Json) : Except LoadError Json := toJson <$> ofJson frames j

end Node

namespace Program

theorem exists_of_ofJson {frames : Nat} {j : Json} {p : Program} (h : ofJson frames j = .ok p) :
    ∀ n ∈ p, ∃ j, Node.ofJson frames j = .ok n := by
  unfold ofJson at h
  split at h
  · split at h
    · obtain ⟨body, -, hbody⟩ := bind_eq_ok_iff.1 h
      exact Node.exists_of_itemsOf hbody
    · cases h
  · cases h

theorem ofJson_toJson_of_ofJson {frames : Nat} {j : Json} {p : Program}
    (h : ofJson frames j = .ok p) : ofJson frames (toJson p) = .ok p := by
  have hitems : Node.itemsOf (Node.ofJson frames) (.list (Node.allToJson p)) = .ok p := by
    refine Node.itemsOf_allToJson fun n hn => ?_
    obtain ⟨j, hj⟩ := exists_of_ofJson h n hn
    exact Node.ofJson_toJson_of_ofJson hj
  simp [toJson, ofJson, Json.Fields.allow, Json.Fields.require, hitems]

/-- The record that a program is stored as once it was loaded. -/
def normal (frames : Nat) (j : Json) : Except LoadError Json := toJson <$> ofJson frames j

end Program

/-- Whatever data loads as a tree or a program, storing what was loaded gives a record that loads as the
same again, with no more frames. So each record is made normal at once: its normal form is its own. -/
theorem loaded_records_normalise (frames : Nat) (j : Json) :
    (∀ n, Node.ofJson frames j = .ok n →
      n.loads frames = true ∧ Node.ofJson frames n.toJson = .ok n) ∧
    (∀ p, Program.ofJson frames j = .ok p →
      (∀ n ∈ p, n.loads frames = true) ∧ Program.ofJson frames p.toJson = .ok p) ∧
    (∀ k, Node.normal frames j = .ok k → Node.normal frames k = .ok k) ∧
    (∀ k, Program.normal frames j = .ok k → Program.normal frames k = .ok k) := by
  have hnode : ∀ n, Node.ofJson frames j = .ok n → Node.ofJson frames n.toJson = .ok n :=
    fun n => Node.ofJson_toJson_of_ofJson
  have hprogram : ∀ p, Program.ofJson frames j = .ok p → Program.ofJson frames p.toJson = .ok p :=
    fun p => Program.ofJson_toJson_of_ofJson
  refine ⟨fun n h => ⟨Node.loads_of_ofJson h, hnode n h⟩, fun p h => ⟨fun n hn => ?_, hprogram p h⟩,
    fun k h => ?_, fun k h => ?_⟩
  · obtain ⟨i, hi⟩ := Program.exists_of_ofJson h n hn
    exact Node.loads_of_ofJson hi
  · obtain ⟨n, hn, rfl⟩ := map_eq_ok_iff.1 h
    exact map_eq_ok_iff.2 ⟨n, hnode n hn, rfl⟩
  · obtain ⟨p, hp, rfl⟩ := map_eq_ok_iff.1 h
    exact map_eq_ok_iff.2 ⟨p, hprogram p hp, rfl⟩

/-- A declaration with a number for a name, its line as a text, no initializer and a field too many. -/
def oddRecord : Json :=
  .record [("more", .null), ("type", .text "Var"),
    ("name", .record [("line", .text " 7 "), ("token", .text "NUMBER"), ("lexeme", .integer 5)])]

theorem loaded_records_normalise_odd :
    let n : Node := .var (.token ⟨.number, .integer 5, .null, 7⟩) .missing
    let k : Json := .record [("type", .text "Var"), ("name", .record [("token", .text "NUMBER"),
      ("lexeme", .integer 5), ("literal", .null), ("line", .integer 7)]), ("initializer", .null)]
    (Node.ofJson 2 oddRecord = .ok n ∧ Node.normal 2 oddRecord = .ok k ∧
      Program.ofJson 2 (.record [("type", .text "Program"), ("body", .text "")]) = .ok []) ∧
    Node.ofJson 2 n.toJson = .ok n ∧ Node.normal 2 k = .ok k ∧
    Program.ofJson 2 (Program.toJson []) = .ok [] := by
  intro n k
  have hn : Node.ofJson 2 oddRecord = .ok n := rfl
  have hk : Node.normal 2 oddRecord = .ok k := rfl
  have hp : Program.ofJson 2 (.record [("type", .text "Program"), ("body", .text "")]) = .ok [] := rfl
  obtain ⟨hnode, -, hnormal, -⟩ := loaded_records_normalise 2 oddRecord
  obtain ⟨-, hprogram, -⟩ :=
    loaded_records_normalise 2 (.record [("type", .text "Program"), ("body", .text "")])
  exact ⟨⟨hn, hk, hp⟩, (hnode n hn).2, hnormal k hk, (hprogram [] hp).2⟩

end Lox
