import UnitAnalysis.Proofs.Action
import UnitAnalysis.Proofs.Reading

/-!
# Spelled types

A type is written from its base outwards: the base with its qualifiers, and then
for each further layer a star or an ampersand with the qualifiers of that layer.
The qualifiers of the base may stand before it as well, and the words for the
qualifiers of any layer may be repeated and come in any order.  However a type is
written, it is read back as that type.

Main statement: `parseType_spelling`.
-/

namespace UnitAnalysis

open Check

/-! ## Words for qualifiers -/

namespace Qualifiers

def words (q : Qualifiers) : List Qualifier :=
  (if q.isConst then [.const] else []) ++ if q.isVolatile then [.volatile] else []

/-- The qualifiers that some words name. -/
def ofWords (words : List Qualifier) : Qualifiers :=
  ⟨.const ∈ words, .volatile ∈ words⟩

@[simp] theorem ofWords_nil : ofWords [] = .none :=
  rfl

@[simp] theorem ofWords_words (q : Qualifiers) : ofWords q.words = q := by
  rcases q with ⟨_ | _, _ | _⟩ <;> decide

theorem ofWords_append (before after : List Qualifier) :
    ofWords (before ++ after) = (ofWords before).union (ofWords after) := by
  simp [ofWords, union, List.mem_append]

@[simp] theorem none_union (q : Qualifiers) : none.union q = q := by
  simp [none, union]

@[simp] theorem union_none (q : Qualifiers) : q.union none = q := by
  simp [none, union]

/-- A word put into a set is one that need not be read any more. -/
theorem insert_union_ofWords (q : Qualifiers) (word : Qualifier) (words : List Qualifier) :
    (q.insert word).union (ofWords words) = q.union (ofWords (word :: words)) := by
  cases word <;> simp [insert, union, ofWords]

end Qualifiers

theorem readQualifiers_words (q : Qualifiers) (words : List Qualifier) (ts : List Token) :
    readQualifiers q (words.map .qualifier ++ ts) =
      readQualifiers (q.union (.ofWords words)) ts := by
  induction words generalizing q with
  | nil => simp
  | cons word words ih =>
      simp only [List.map_cons, List.cons_append, readQualifiers]
      rw [ih, Qualifiers.insert_union_ofWords]

theorem readSuffixes_words (words : List Qualifier) (ts : List Token) :
    readSuffixes (words.map .qualifier ++ ts) =
      (words.map .qualifier ++ (readSuffixes ts).1, (readSuffixes ts).2) := by
  induction words with
  | nil => rfl
  | cons word words ih =>
      simp only [List.map_cons, List.cons_append, readSuffixes]
      rw [ih]

theorem readSuffixes_of_ends {ts : List Token} (h : Ends Token.continuesType ts) :
    readSuffixes ts = ([], ts) := by
  cases ts with
  | nil => rfl
  | cons t ts =>
      simp only [ends_cons, Token.continuesType, not_or, not_exists] at h
      obtain ⟨-, hword, hmul, hamp⟩ := h
      rw [readSuffixes]
      · exact fun word rest heq => hword word (List.cons.inj heq).1
      · exact fun rest heq => hmul (List.cons.inj heq).1
      · exact fun rest heq => hamp (List.cons.inj heq).1

/-- Words after a layer join the qualifiers that the layer has already. -/
theorem TypeSuffix.foldl_apply_words (t : Ty) (words : List Qualifier) :
    (words.map TypeSuffix.qualifier).foldl TypeSuffix.apply t =
      t.withQuals (t.quals.union (.ofWords words)) := by
  induction words generalizing t with
  | nil => cases t <;> simp [Ty.withQuals, Ty.quals]
  | cons word words ih =>
      rw [List.map_cons, List.foldl_cons, ih]
      simp only [TypeSuffix.apply, Ty.qualify, Ty.quals_withQuals,
        Qualifiers.insert_union_ofWords]
      cases t <;> rfl

/-! ## Trees that go on -/

def TypeBase.analyze (s : Store) (p : Place) : TypeBase → Except Error Ty
  | .builtin kind => .ok (.ofBuiltin kind)
  | .named path => s.namedTy p path

theorem TypeTree.analyze_of_base {tree : TypeTree} {base : TypeBase} (h : tree.base = .ok base)
    (s : Store) (p : Place) :
    tree.analyze s p = (base.analyze s p).map fun ty =>
      tree.suffixes.foldl TypeSuffix.apply (ty.withQuals tree.quals) := by
  unfold TypeTree.analyze
  rw [h]
  cases base <;> rfl

/-- A type with further suffixes. -/
def TypeTree.followedBy (tree : TypeTree) (more : List TypeSuffix) : TypeTree :=
  { tree with suffixes := tree.suffixes ++ more }

theorem TypeTree.followedBy_followedBy (tree : TypeTree) (more later : List TypeSuffix) :
    (tree.followedBy more).followedBy later = tree.followedBy (more ++ later) := by
  simp [followedBy]

theorem TypeTree.analyze_followedBy {s : Store} {p : Place} {tree : TypeTree} {t : Ty}
    (h : tree.analyze s p = .ok t) (more : List TypeSuffix) :
    (tree.followedBy more).analyze s p = .ok (more.foldl TypeSuffix.apply t) := by
  cases hbase : tree.base with
  | error fault =>
      rw [TypeTree.analyze, hbase] at h
      cases h
  | ok base =>
      have hmore : (tree.followedBy more).base = .ok base := hbase
      rw [analyze_of_base hbase, map_eq_ok] at h
      obtain ⟨ty, hty, rfl⟩ := h
      rw [analyze_of_base hmore, hty, followedBy, ← List.foldl_append]
      rfl

/-! ## Spellings -/

/-- The token for the base of a type, where the type is nothing but a base. -/
def Ty.baseToken? (a : Arena) : Ty → Option Token
  | .builtin _ kind => some (.builtin kind)
  | .tag _ _ decl _ => (a.name? decl).map .name
  | .pointer _ _ | .reference _ _ => none

/-- The ways to write a type. -/
inductive Spells (a : Arena) : Ty → List Token → Prop where
  | base {t : Ty} {token : Token} {before after : List Qualifier}
      (htoken : t.baseToken? a = some token)
      (hquals : Qualifiers.ofWords (before ++ after) = t.quals) :
      Spells a t (before.map .qualifier ++ token :: after.map .qualifier)
  | pointer {t : Ty} {ts : List Token} {words : List Qualifier} (ht : Spells a t ts) :
      Spells a (.pointer (.ofWords words) t) (ts ++ .operator .mul :: words.map .qualifier)
  | reference {t : Ty} {ts : List Token} {words : List Qualifier} (ht : Spells a t ts) :
      Spells a (.reference (.ofWords words) t) (ts ++ .mark .amp :: words.map .qualifier)

/-- The way to write a type with each qualifier once, after what it qualifies. -/
def Ty.spelling (a : Arena) : Ty → List Token
  | .builtin q kind => .builtin kind :: q.words.map .qualifier
  | .tag q _ decl _ => .name (a.displayName decl) :: q.words.map .qualifier
  | .pointer q t => t.spelling a ++ .operator .mul :: q.words.map .qualifier
  | .reference q t => t.spelling a ++ .mark .amp :: q.words.map .qualifier

/-- At a place, the name of the class or enum at the base of a type leads to it. -/
def Ty.Resolves (s : Store) (p : Place) : Ty → Prop
  | .builtin _ _ => True
  | .pointer _ t | .reference _ t => t.Resolves s p
  | .tag _ kind decl _ =>
      s.arena.sort? decl = some (.tag kind) ∧
        ∃ name, s.arena.name? decl = some name ∧ s.lookup p name .context = [decl]

/-- The type in which the class or enum at the base goes by its own name. -/
def Ty.called (a : Arena) : Ty → Ty
  | .builtin q kind => .builtin q kind
  | .pointer q t => .pointer q (t.called a)
  | .reference q t => .reference q (t.called a)
  | .tag q kind decl _ => .tag q kind decl (a.displayName decl)

theorem Ty.called_same (a : Arena) (t : Ty) : (t.called a).same t = true := by
  induction t with
  | builtin | tag => simp [called, same]
  | pointer q t ih | reference q t ih => simp [called, same, ih]

theorem Ty.Resolves.spells_spelling {s : Store} {p : Place} {t : Ty} (h : t.Resolves s p) :
    Spells s.arena t (t.spelling s.arena) := by
  induction t with
  | builtin q kind => exact @Spells.base _ _ _ [] q.words rfl q.ofWords_words
  | tag q kind decl name =>
      obtain ⟨-, own, hown, -⟩ := h
      have htoken : (Ty.tag q kind decl name).baseToken? s.arena =
          some (.name (s.arena.displayName decl)) := by
        simp [baseToken?, Arena.displayName, hown]
      exact @Spells.base _ _ _ [] q.words htoken q.ofWords_words
  | pointer q t ih =>
      have hspells : Spells s.arena (.pointer (.ofWords q.words) t) _ := .pointer (ih h)
      rwa [Qualifiers.ofWords_words] at hspells
  | reference q t ih =>
      have hspells : Spells s.arena (.reference (.ofWords q.words) t) _ := .reference (ih h)
      rwa [Qualifiers.ofWords_words] at hspells

/-! ## Reading -/

/-- A token for a base, the base it is read as, and the type that this means at a place. -/
structure TypeBase.IsToken (s : Store) (p : Place) (t : Ty) (token : Token) (base : TypeBase) :
    Prop where
  read : ∀ {ts}, Ends (· = .mark .colons) ts → readBase (token :: ts) = (.ok base, ts)
  not_qualifier : ∀ word, token ≠ .qualifier word
  means : base.analyze s p = .ok ((t.called s.arena).withQuals .none)

theorem readSegments_of_ends {ts : List Token} (h : Ends (· = .mark .colons) ts) :
    readSegments ts = (.ok [], ts) := by
  cases ts with
  | nil => rfl
  | cons t ts =>
      rw [ends_cons] at h
      rw [readSegments]
      · exact fun text rest heq => h (List.cons.inj heq).1
      · exact fun rest heq => h (List.cons.inj heq).1

theorem Ty.Resolves.exists_isToken {s : Store} {p : Place} {t : Ty} (ht : t.Resolves s p)
    {token : Token} (htoken : t.baseToken? s.arena = some token) :
    ∃ base, TypeBase.IsToken s p t token base := by
  cases t with
  | pointer | reference => cases htoken
  | builtin q kind =>
      cases htoken
      exact ⟨.builtin kind, fun _ => rfl, by simp, rfl⟩
  | tag q kind decl name =>
      obtain ⟨hsort, own, hown, hlookup⟩ := ht
      rw [baseToken?, hown] at htoken
      cases htoken
      refine ⟨.named ⟨own, []⟩, ?_, by simp, ?_⟩
      · intro ts hts
        rw [readBase, readSegments_of_ends hts]
        rfl
      · have hpath : s.lookupPath p ⟨own, []⟩ .context = .ok [decl] := by
          rw [← hlookup]
          rfl
        simp only [TypeBase.analyze, Store.namedTy, hpath, ok_bind, Arena.tagTy?, hsort]
        rfl

/-- A base and the words around it, before anything that is not a further segment of a name. -/
theorem readType_base {s : Store} {p : Place} {t : Ty} {token : Token} {base : TypeBase}
    (hbase : TypeBase.IsToken s p t token base) (before after : List Qualifier)
    {rest : List Token} (hrest : Ends (· = .mark .colons) rest) :
    readType (before.map .qualifier ++ token :: after.map .qualifier ++ rest) =
      (⟨.ofWords before, .ok base, after.map .qualifier ++ (readSuffixes rest).1⟩,
        (readSuffixes rest).2) := by
  have hstop (quals : Qualifiers) (ts : List Token) :
      readQualifiers quals (token :: ts) = (quals, token :: ts) := by
    rw [readQualifiers]
    exact fun word rest heq => hbase.not_qualifier word (List.cons.inj heq).1
  have hends : Ends (· = .mark .colons) (after.map .qualifier ++ rest) := by
    cases after with
    | nil => exact hrest
    | cons word words => simp
  simp only [readType, List.append_assoc, List.cons_append, readQualifiers_words,
    Qualifiers.none_union, hstop, hbase.read hends, readSuffixes_words]

/--
The tokens are read as the tree whatever follows them, with the suffixes that follow
added to it.
-/
def TypeTree.IsReadFrom (tree : TypeTree) (ts : List Token) : Prop :=
  ∀ rest, Ends (· = .mark .colons) rest →
    readType (ts ++ rest) = (tree.followedBy (readSuffixes rest).1, (readSuffixes rest).2)

/-- A further layer with its qualifiers adds its suffixes to the tree. -/
theorem TypeTree.IsReadFrom.layer {tree : TypeTree} {ts : List Token} (h : tree.IsReadFrom ts)
    {token : Token} {suffix : TypeSuffix} (htoken : token ≠ .mark .colons)
    (hsuffix : ∀ ts, readSuffixes (token :: ts) =
      (suffix :: (readSuffixes ts).1, (readSuffixes ts).2)) (words : List Qualifier) :
    (tree.followedBy (suffix :: words.map .qualifier)).IsReadFrom
      (ts ++ token :: words.map .qualifier) := by
  intro rest _
  rw [List.append_assoc, List.cons_append, h _ (by simpa using htoken), hsuffix,
    readSuffixes_words, TypeTree.followedBy_followedBy]
  rfl

/-- What is written for a type is read as a tree that means the type. -/
theorem Spells.exists_tree {s : Store} {p : Place} {t : Ty} {ts : List Token}
    (h : Spells s.arena t ts) (ht : t.Resolves s p) :
    ∃ tree : TypeTree, tree.analyze s p = .ok (t.called s.arena) ∧ tree.IsReadFrom ts := by
  induction h with
  | @base t token before after htoken hquals =>
      obtain ⟨base, hbase⟩ := ht.exists_isToken htoken
      refine ⟨⟨.ofWords before, .ok base, after.map .qualifier⟩, ?_, ?_⟩
      · rw [TypeTree.analyze_of_base rfl, hbase.means]
        simp only [Except.map, TypeSuffix.foldl_apply_words, Ty.quals_withQuals,
          ← Qualifiers.ofWords_append, hquals]
        cases t <;> rfl
      · exact fun rest hrest => readType_base hbase before after hrest
  | @pointer t ts words _ ih =>
      obtain ⟨tree, hmeans, hread⟩ := ih ht
      refine ⟨_, ?_, hread.layer (by simp) (fun _ => rfl) words⟩
      rw [TypeTree.analyze_followedBy hmeans, List.foldl_cons, TypeSuffix.foldl_apply_words]
      simp [TypeSuffix.apply, Ty.pointerTo, Ty.withQuals, Ty.quals, Ty.called]
  | @reference t ts words _ ih =>
      obtain ⟨tree, hmeans, hread⟩ := ih ht
      refine ⟨_, ?_, hread.layer (by simp) (fun _ => rfl) words⟩
      rw [TypeTree.analyze_followedBy hmeans, List.foldl_cons, TypeSuffix.foldl_apply_words]
      simp [TypeSuffix.apply, Ty.referenceTo, Ty.withQuals, Ty.quals, Ty.called]

/-- Reads a type and analyses it, and gives it with the tokens after it. -/
def parseType (s : Store) (p : Place) (ts : List Token) : Except Error (Ty × List Token) := do
  let (tree, rest) := readType ts
  pure (← tree.analyze s p, rest)

theorem Spells.parseType_eq {s : Store} {p : Place} {t : Ty} {ts rest : List Token}
    (h : Spells s.arena t ts) (ht : t.Resolves s p) (hrest : Ends Token.continuesType rest) :
    parseType s p (ts ++ rest) = .ok (t.called s.arena, rest) := by
  obtain ⟨tree, hmeans, hread⟩ := h.exists_tree ht
  have hsegments : Ends (· = .mark .colons) rest := hrest.mono fun _ => .inl
  rw [parseType, hread rest hsegments, readSuffixes_of_ends hrest]
  simp only [TypeTree.analyze_followedBy hmeans, List.foldl_nil]
  rfl

/--
A type whose base can be named is read back from its spelling, and nothing after
the spelling is read.  The result is the same one for every way to write the type:
with the words for the base before it, after it or on both sides, and with the words
of any layer repeated or in another order.
-/
theorem parseType_spelling {s : Store} {p : Place} {t : Ty} (ht : t.Resolves s p) :
    ∃ u : Ty, u.same t = true ∧ ∀ rest, Ends Token.continuesType rest →
      parseType s p (t.spelling s.arena ++ rest) = .ok (u, rest) ∧
      ∀ ts, Spells s.arena t ts → parseType s p (ts ++ rest) = .ok (u, rest) := by
  refine ⟨t.called s.arena, t.called_same s.arena, fun rest hrest => ⟨?_, ?_⟩⟩
  · exact ht.spells_spelling.parseType_eq ht hrest
  · exact fun ts hts => hts.parseType_eq ht hrest

/--
After `enum E`, a reference to a constant pointer to a constant volatile `E` is read from
`E const volatile * const &`, and from `volatile E const volatile * const const &` too.
-/
theorem parseType_spelling_enum : ∃ s : Store, ∃ t u : Ty,
    t = .reference .none (.pointer ⟨true, false⟩ (.tag ⟨true, true⟩ .enumTag 1 "E")) ∧
    t.Resolves s .top ∧ u.same t = true ∧
    parseType s .top [.name "E", .qualifier .const, .qualifier .volatile, .operator .mul,
      .qualifier .const, .mark .amp, .name "x"] = .ok (u, [.name "x"]) ∧
    parseType s .top [.qualifier .volatile, .name "E", .qualifier .const, .qualifier .volatile,
      .operator .mul, .qualifier .const, .qualifier .const, .mark .amp, .name "x"] =
        .ok (u, [.name "x"]) := by
  let s : Store :=
    ⟨⟨#[⟨none, none, .unit [1]⟩, ⟨some "E", some 0, .tag .enumTag []⟩], ["E"]⟩,
      ⟨#[⟨none, 0, [1]⟩]⟩⟩
  let t : Ty := .reference .none (.pointer ⟨true, false⟩ (.tag ⟨true, true⟩ .enumTag 1 "E"))
  have ht : t.Resolves s .top := ⟨rfl, "E", rfl, by decide +kernel⟩
  obtain ⟨u, hsame, hread⟩ := parseType_spelling ht
  obtain ⟨hspelling, hspells⟩ := hread [.name "x"] (by simp)
  refine ⟨s, t, u, rfl, ht, hsame, hspelling, ?_⟩
  apply hspells [.qualifier .volatile, .name "E", .qualifier .const, .qualifier .volatile,
    .operator .mul, .qualifier .const, .qualifier .const, .mark .amp]
  exact @Spells.reference _ _ _ [] (@Spells.pointer _ _ _ [.const, .const]
    (@Spells.base _ _ _ [.volatile] [.const, .volatile] rfl rfl))

end UnitAnalysis
