import UnitAnalysis.Proofs.Acceptance
import UnitAnalysis.Proofs.Invariant
import UnitAnalysis.Proofs.Parts
import UnitAnalysis.Walk

/-!
# Ownership

The declarations of an accepted unit form a tree that lies in the arena in
preorder: each declaration is followed by what it owns.  Therefore a walk meets
the declarations in the order of their indices, and everything that they hold
exactly once.  Main statement: `preorder_of_analyze`.
-/

namespace UnitAnalysis

/-! ## Walks in preorder -/

def Node.decl? : Node → Option DeclId
  | .decl id => some id
  | .stmt _ | .expr _ => none

def Node.stmt? : Node → Option Stmt
  | .stmt body => some body
  | .decl _ | .expr _ => none

def Node.expr? : Node → Option Expr
  | .expr e => some e
  | .decl _ | .stmt _ => none

namespace Arena

def children (a : Arena) (id : DeclId) : List DeclId :=
  ((a.kind? id).map (·.children)).getD []

def stmts (a : Arena) (id : DeclId) : List Stmt :=
  ((a.kind? id).map (·.stmts)).getD []

def exprs (a : Arena) (id : DeclId) : List Expr :=
  (((a.kind? id).map (·.roots)).getD []).flatMap Expr.parts

/--
The walk that enters everything meets the declarations in order, and each of the
statements and expressions once.  It ends by itself: a deeper walk meets nothing
else.
-/
structure Preorder (a : Arena) : Prop where
  decls : (a.walk fun _ => true).filterMap Node.decl? = List.range a.size
  stmts : ((a.walk fun _ => true).filterMap Node.stmt?).Perm ((List.range a.size).flatMap a.stmts)
  exprs : ((a.walk fun _ => true).filterMap Node.expr?).Perm ((List.range a.size).flatMap a.exprs)
  ends : ∀ enter depth, a.size ≤ depth → a.nodesWithin enter depth root = a.walk enter
  owned : ((List.range a.size).flatMap a.children).Perm (List.range' 1 (a.size - 1))

end Arena

/-! ## Nodes of expressions and statements -/

mutual

theorem Expr.nodes_eq (e : Expr) : e.nodes (fun _ => true) = e.parts.map .expr := by
  cases e with
  | int | float | bool | ref => simp [Expr.nodes, Expr.parts]
  | binary t op lhs rhs => simp [Expr.nodes, Expr.parts, lhs.nodes_eq, rhs.nodes_eq]
  | cast t kind operand => simp [Expr.nodes, Expr.parts, operand.nodes_eq]
  | load t operand => simp [Expr.nodes, Expr.parts, operand.nodes_eq]
  | call t callee args => simp [Expr.nodes, Expr.parts, Expr.nodesAll_eq args]

theorem Expr.nodesAll_eq (es : List Expr) :
    Expr.nodesAll (fun _ => true) es = (Expr.partsAll es).map .expr := by
  cases es with
  | nil => rfl
  | cons e es => simp [Expr.nodesAll, Expr.partsAll, e.nodes_eq, Expr.nodesAll_eq es]

end

theorem perm_interleave {α : Type} (a₁ b₁ c₁ a₂ b₂ c₂ : List α) :
    ((a₁ ++ b₁ ++ c₁) ++ (a₂ ++ b₂ ++ c₂)).Perm ((a₁ ++ a₂) ++ (b₁ ++ b₂) ++ (c₁ ++ c₂)) := by
  classical
  rw [List.perm_iff_count]
  intro x
  simp only [List.count_append]
  omega

mutual

theorem Stmt.nodes_perm (declNodes : DeclId → List Node) (stmt : Stmt) :
    (stmt.nodes (fun _ => true) declNodes).Perm
      (stmt.parts.map .stmt ++ (stmt.roots.flatMap Expr.parts).map .expr ++
        stmt.decls.flatMap declNodes) := by
  match stmt with
  | .compound body =>
      simpa [Stmt.nodes, Stmt.parts, Stmt.roots, Stmt.decls] using
        Stmt.nodesAll_perm declNodes body
  | .decl id => simp [Stmt.nodes, Stmt.parts, Stmt.roots, Stmt.decls]
  | .expr e => simp [Stmt.nodes, Stmt.parts, Stmt.roots, Stmt.decls, Expr.nodes_eq]
  | .ret none => simp [Stmt.nodes, Stmt.parts, Stmt.roots, Stmt.decls]
  | .ret (some e) => simp [Stmt.nodes, Stmt.parts, Stmt.roots, Stmt.decls, Expr.nodes_eq]

theorem Stmt.nodesAll_perm (declNodes : DeclId → List Node) (stmts : List Stmt) :
    (Stmt.nodesAll (fun _ => true) declNodes stmts).Perm
      ((Stmt.partsAll stmts).map .stmt ++ ((Stmt.rootsAll stmts).flatMap Expr.parts).map .expr ++
        (Stmt.declsAll stmts).flatMap declNodes) := by
  match stmts with
  | [] => simp [Stmt.nodesAll, Stmt.partsAll, Stmt.rootsAll, Stmt.declsAll]
  | stmt :: stmts =>
      have hboth := (stmt.nodes_perm declNodes).append (Stmt.nodesAll_perm declNodes stmts)
      have hsorted := hboth.trans (perm_interleave _ _ _ _ _ _)
      simpa [Stmt.nodesAll, Stmt.partsAll, Stmt.rootsAll, Stmt.declsAll] using hsorted

end

mutual

theorem Stmt.decl?_nodes (declNodes : DeclId → List Node) (stmt : Stmt) :
    (stmt.nodes (fun _ => true) declNodes).filterMap Node.decl? =
      stmt.decls.flatMap fun id => (declNodes id).filterMap Node.decl? := by
  match stmt with
  | .compound body =>
      simpa [Stmt.nodes, Stmt.decls, Node.decl?, List.filterMap_cons] using
        Stmt.decl?_nodesAll declNodes body
  | .decl id => simp [Stmt.nodes, Stmt.decls, Node.decl?, List.filterMap_cons]
  | .expr e => simp [Stmt.nodes, Stmt.decls, Expr.nodes_eq, Node.decl?]
  | .ret none => simp [Stmt.nodes, Stmt.decls, Node.decl?]
  | .ret (some e) => simp [Stmt.nodes, Stmt.decls, Expr.nodes_eq, Node.decl?]

theorem Stmt.decl?_nodesAll (declNodes : DeclId → List Node) (stmts : List Stmt) :
    (Stmt.nodesAll (fun _ => true) declNodes stmts).filterMap Node.decl? =
      (Stmt.declsAll stmts).flatMap fun id => (declNodes id).filterMap Node.decl? := by
  match stmts with
  | [] => rfl
  | stmt :: stmts =>
      rw [Stmt.nodesAll, List.filterMap_append, stmt.decl?_nodes declNodes,
        Stmt.decl?_nodesAll declNodes stmts, Stmt.declsAll, List.flatMap_append]

end

mutual

theorem Stmt.nodes_congr {enter : Node → Bool} {f g : DeclId → List Node} (stmt : Stmt)
    (h : ∀ id ∈ stmt.decls, f id = g id) : stmt.nodes enter f = stmt.nodes enter g := by
  match stmt with
  | .compound body =>
      rw [Stmt.nodes, Stmt.nodes]
      simp only [Stmt.nodesAll_congr body h]
  | .decl id =>
      rw [Stmt.nodes, Stmt.nodes]
      simp only [h id (by simp [Stmt.decls])]
  | .expr e => rfl
  | .ret none => rfl
  | .ret (some e) => rfl

theorem Stmt.nodesAll_congr {enter : Node → Bool} {f g : DeclId → List Node}
    (stmts : List Stmt) (h : ∀ id ∈ Stmt.declsAll stmts, f id = g id) :
    Stmt.nodesAll enter f stmts = Stmt.nodesAll enter g stmts := by
  match stmts with
  | [] => rfl
  | stmt :: stmts =>
      have hfirst : ∀ id ∈ stmt.decls, f id = g id :=
        fun id hid => h id (List.mem_append_left _ hid)
      have hrest : ∀ id ∈ Stmt.declsAll stmts, f id = g id :=
        fun id hid => h id (List.mem_append_right _ hid)
      rw [Stmt.nodesAll, Stmt.nodesAll, stmt.nodes_congr hfirst, Stmt.nodesAll_congr stmts hrest]

end

/-! ## Nodes of declarations -/

namespace Arena

variable {a b : Arena}

/-- The nodes of a declaration without those of what it owns. -/
def own (a : Arena) (id : DeclId) : List Node :=
  .decl id :: ((a.stmts id).map .stmt ++ (a.exprs id).map .expr)

theorem nodesWithin_perm (a : Arena) (depth : Nat) (id : DeclId) :
    (a.nodesWithin (fun _ => true) (depth + 1) id).Perm
      (a.own id ++ (a.children id).flatMap (a.nodesWithin (fun _ => true) depth)) := by
  rw [nodesWithin, if_pos rfl]
  refine List.Perm.cons _ ?_
  unfold stmts exprs children
  cases a.kind? id with
  | none => simp
  | some kind =>
      match kind with
      | .unit members | .tag _ members =>
          simp [DeclKind.stmts, DeclKind.roots, DeclKind.children]
      | .var _ none | .field _ | .enumerator _ =>
          simp [DeclKind.stmts, DeclKind.roots, DeclKind.children]
      | .var _ (some init) =>
          simp [DeclKind.stmts, DeclKind.roots, DeclKind.children, Expr.nodes_eq]
      | .func f =>
          -- The walk meets the parameters first, the list has them after the body.
          have hbody := Stmt.nodesAll_perm (a.nodesWithin (fun _ => true) depth) (f.body.getD [])
          have hall := hbody.append_left (f.params.flatMap (a.nodesWithin (fun _ => true) depth))
          refine hall.trans ?_
          simp only [Option.map_some, Option.getD_some, DeclKind.stmts, DeclKind.roots,
            DeclKind.children, List.flatMap_append]
          exact List.perm_append_comm_assoc _ _ _

theorem decl?_nodesWithin (a : Arena) (depth : Nat) (id : DeclId) :
    (a.nodesWithin (fun _ => true) (depth + 1) id).filterMap Node.decl? =
      id :: (a.children id).flatMap fun child =>
        (a.nodesWithin (fun _ => true) depth child).filterMap Node.decl? := by
  rw [nodesWithin, if_pos rfl]
  unfold children
  cases a.kind? id with
  | none => simp [Node.decl?]
  | some kind =>
      match kind with
      | .unit members | .tag _ members =>
          simp [DeclKind.children, Node.decl?, List.filterMap_flatMap]
      | .var _ none | .field _ | .enumerator _ => simp [DeclKind.children, Node.decl?]
      | .var _ (some init) => simp [DeclKind.children, Node.decl?, Expr.nodes_eq]
      | .func f =>
          simp [DeclKind.children, Node.decl?, List.filterMap_flatMap, Stmt.decl?_nodesAll]

theorem nodesWithin_congr {enter : Node → Bool} {depth depth' : Nat} {id : DeclId}
    (h : ∀ child ∈ a.children id,
      a.nodesWithin enter depth child = a.nodesWithin enter depth' child) :
    a.nodesWithin enter (depth + 1) id = a.nodesWithin enter (depth' + 1) id := by
  rw [nodesWithin, nodesWithin]
  unfold children at h
  cases hkind : a.kind? id with
  | none => rfl
  | some kind =>
      simp only [hkind, Option.map_some, Option.getD_some] at h
      match kind with
      | .unit members | .tag _ members =>
          simp only [DeclKind.children] at h
          simp only [List.flatMap_congr h]
      | .var _ none | .field _ | .enumerator _ | .var _ (some _) => rfl
      | .func f =>
          simp only [DeclKind.children, List.mem_append] at h
          have hparams := List.flatMap_congr fun child hchild => h child (.inl hchild)
          have hbody : Stmt.nodesAll enter (a.nodesWithin enter depth) (f.body.getD []) =
              Stmt.nodesAll enter (a.nodesWithin enter depth') (f.body.getD []) :=
            Stmt.nodesAll_congr _ fun child hchild => h child (.inr hchild)
          simp only [hparams, hbody]

/-! ## Tiles -/

/--
The declarations `ids`, each followed by what it owns, take up the indices from
`start` to `stop` without a gap.
-/
inductive Tiles (a : Arena) : List DeclId → Nat → Nat → Prop where
  | nil {start : Nat} : Tiles a [] start start
  | cons {id mid stop : Nat} {ids : List DeclId} (hchildren : Tiles a (a.children id) (id + 1) mid)
      (hrest : Tiles a ids mid stop) : Tiles a (id :: ids) id stop

namespace Tiles

variable {ids : List DeclId} {start stop : Nat}

theorem le (h : a.Tiles ids start stop) : start ≤ stop := by
  induction h with
  | nil => exact Nat.le_refl _
  | cons _ _ ihchildren ihrest => omega

theorem congr (h : a.Tiles ids start stop)
    (hchildren : ∀ x, start ≤ x → x < stop → b.children x = a.children x) :
    b.Tiles ids start stop := by
  induction h with
  | nil => exact .nil
  | cons hfirst hrest ihfirst ihrest =>
      have hle := hfirst.le
      have hle' := hrest.le
      refine .cons ?_ (ihrest fun x hx hx' => hchildren x (by omega) hx')
      rw [hchildren _ (Nat.le_refl _) (by omega)]
      exact ihfirst fun x hx hx' => hchildren x (by omega) (by omega)

theorem append {more : List DeclId} {mid : Nat} (h : a.Tiles ids start mid)
    (hmore : a.Tiles more mid stop) : a.Tiles (ids ++ more) start stop := by
  induction h with
  | nil => exact hmore
  | cons hfirst _ _ ih => exact .cons hfirst (ih hmore)

theorem one {id : Nat} (h : a.children id = []) : a.Tiles [id] id (id + 1) := by
  refine .cons ?_ .nil
  rw [h]
  exact .nil

theorem range'_split {id mid stop : Nat} (hle : id + 1 ≤ mid) (hle' : mid ≤ stop) :
    List.range' id (stop - id) =
      id :: (List.range' (id + 1) (mid - (id + 1)) ++ List.range' mid (stop - mid)) := by
  have hlength : stop - id = (mid - (id + 1)) + (stop - mid) + 1 := by omega
  have hmid : id + 1 + (mid - (id + 1)) = mid := by omega
  rw [hlength, List.range'_succ, ← List.range'_append_1, hmid]

theorem decl?_nodes (h : a.Tiles ids start stop) {depth : Nat} (hdepth : stop - start ≤ depth) :
    (ids.flatMap fun id => (a.nodesWithin (fun _ => true) depth id).filterMap Node.decl?) =
      List.range' start (stop - start) := by
  induction h generalizing depth with
  | nil => simp
  | cons hchildren hrest ihchildren ihrest =>
      have hle := hchildren.le
      have hle' := hrest.le
      obtain ⟨depth, rfl⟩ := Nat.exists_eq_succ_of_ne_zero (n := depth) (by omega)
      rw [List.flatMap_cons, decl?_nodesWithin, ihchildren (by omega), ihrest (by omega),
        range'_split hle hle', List.cons_append]

theorem nodes_perm (h : a.Tiles ids start stop) {depth : Nat} (hdepth : stop - start ≤ depth) :
    (ids.flatMap (a.nodesWithin (fun _ => true) depth)).Perm
      ((List.range' start (stop - start)).flatMap a.own) := by
  induction h generalizing depth with
  | nil => simp
  | cons hchildren hrest ihchildren ihrest =>
      have hle := hchildren.le
      have hle' := hrest.le
      obtain ⟨depth, rfl⟩ := Nat.exists_eq_succ_of_ne_zero (n := depth) (by omega)
      have hfirst := (a.nodesWithin_perm depth _).trans
        ((ihchildren (by omega)).append_left (a.own _))
      rw [List.flatMap_cons, range'_split hle hle', List.flatMap_cons, List.flatMap_append,
        ← List.append_assoc]
      exact hfirst.append (ihrest (by omega))

/-- Every index of the tiles is in the list itself or owned by one of the tiles, once. -/
theorem owned_perm (h : a.Tiles ids start stop) :
    (ids ++ (List.range' start (stop - start)).flatMap a.children).Perm
      (List.range' start (stop - start)) := by
  induction h with
  | nil => simp
  | cons hchildren hrest ihchildren ihrest =>
      rw [range'_split hchildren.le hrest.le, List.perm_iff_count]
      intro x
      have hfirst := ihchildren.count_eq x
      have hothers := ihrest.count_eq x
      simp only [List.flatMap_cons, List.flatMap_append, List.count_append, List.count_cons]
        at hfirst hothers ⊢
      omega

theorem nodesWithin_eq (h : a.Tiles ids start stop) {enter : Node → Bool} {depth depth' : Nat}
    (hdepth : stop - start ≤ depth) (hdepth' : stop - start ≤ depth') :
    ∀ id ∈ ids, a.nodesWithin enter depth id = a.nodesWithin enter depth' id := by
  induction h generalizing depth depth' with
  | nil => simp
  | cons hchildren hrest ihchildren ihrest =>
      have hle := hchildren.le
      have hle' := hrest.le
      intro x hx
      rcases List.mem_cons.mp hx with rfl | hx
      · obtain ⟨depth, rfl⟩ := Nat.exists_eq_succ_of_ne_zero (n := depth) (by omega)
        obtain ⟨depth', rfl⟩ := Nat.exists_eq_succ_of_ne_zero (n := depth') (by omega)
        exact nodesWithin_congr (ihchildren (by omega) (by omega))
      · exact ihrest (by omega) (by omega) x hx

end Tiles

theorem filterMap_own_stmt? (a : Arena) (id : DeclId) :
    (a.own id).filterMap Node.stmt? = a.stmts id := by
  simp [own, Node.stmt?, List.filterMap_cons, List.filterMap_map, Function.comp_def]

theorem filterMap_own_expr? (a : Arena) (id : DeclId) :
    (a.own id).filterMap Node.expr? = a.exprs id := by
  simp [own, Node.expr?, List.filterMap_cons, List.filterMap_map, Function.comp_def]

theorem preorder_of_tiles (h : a.Tiles [root] 0 a.size) (hsize : 0 < a.size) : a.Preorder := by
  have hperm := h.nodes_perm (Nat.le_refl _)
  simp only [List.flatMap_singleton, Nat.sub_zero] at hperm
  rw [← List.range_eq_range'] at hperm
  constructor
  · have hdecls := h.decl?_nodes (Nat.le_refl _)
    simp only [List.flatMap_singleton, Nat.sub_zero] at hdecls
    rw [List.range_eq_range']
    exact hdecls
  · have hstmts := hperm.filterMap Node.stmt?
    simpa [walk, List.filterMap_flatMap, filterMap_own_stmt?] using hstmts
  · have hexprs := hperm.filterMap Node.expr?
    simpa [walk, List.filterMap_flatMap, filterMap_own_expr?] using hexprs
  · intro enter depth hdepth
    exact h.nodesWithin_eq hdepth (Nat.le_refl _) root List.mem_cons_self
  · have howned := h.owned_perm
    obtain ⟨size, hsucc⟩ := Nat.exists_eq_succ_of_ne_zero (Nat.ne_of_gt hsize)
    rw [Nat.sub_zero, ← List.range_eq_range'] at howned
    rw [hsucc] at howned ⊢
    have hrange : List.range (size + 1) = root :: List.range' 1 size := by
      rw [List.range_eq_range', List.range'_succ]
      rfl
    rw [Nat.add_one_sub_one]
    refine List.Perm.cons_inv (a := root) ?_
    rw [← hrange]
    exact howned

theorem children_of_decl? {id : DeclId} {d : Decl} (h : a.decl? id = some d) :
    a.children id = d.kind.children := by
  simp [children, kind?, h]

theorem children_of_members? {id : DeclId} {members : List DeclId}
    (h : a.members? id = some members) : a.children id = members := by
  obtain ⟨d, hd, hkind⟩ := members?_eq_some_iff.mp h
  rw [children_of_decl? hd]
  cases hk : d.kind <;> simp_all [DeclKind.members?, DeclKind.children]

theorem children_congr {x : DeclId} (h : b.decl? x = a.decl? x) : b.children x = a.children x := by
  simp [children, kind?, h]

theorem Tiles.of_leaves {start count : Nat}
    (h : ∀ x, start ≤ x → x < start + count → a.children x = []) :
    a.Tiles (List.range' start count) start (start + count) := by
  induction count generalizing start with
  | zero => exact .nil
  | succ count ih =>
      have hfirst : a.Tiles [start] start (start + 1) :=
        .one (h start (Nat.le_refl _) (by omega))
      have hrest : a.Tiles (List.range' (start + 1) count) (start + 1) (start + 1 + count) :=
        ih fun x hx hx' => h x (by omega) (by omega)
      rw [List.range'_succ, Nat.add_comm count 1, ← Nat.add_assoc]
      exact hfirst.append hrest

end Arena

/-! ## Steps -/

theorem VarStep.tiles {p : Place} {s s' : Store} {id : DeclId} (h : VarStep p s id s') :
    s'.arena.Tiles [id] s.arena.size s'.arena.size := by
  obtain ⟨name, ty, init, hd, -⟩ := h.exists_decl?
  have hid := h.id_eq
  subst hid
  rw [h.size_eq]
  exact .one (Arena.children_of_decl? hd)

theorem BlockRun.tiles {p : Place} {s s' : Store} {stmts : List Stmt} (h : BlockRun p s stmts s')
    (hp : p.scope < s.scopes.size) :
    s'.arena.Tiles (Stmt.declsAll stmts) s.arena.size s'.arena.size := by
  induction h with
  | nil => exact .nil
  | block hbody hrest ihbody ihrest =>
      have hclosed := hbody.grows_closed hp
      have hgrows := (hrest.grows hclosed.scope_lt).arena
      refine ((ihbody (Place.inside_lt _ _)).congr ?_).append (ihrest hclosed.scope_lt)
      intro x _ hx
      exact Arena.children_congr (hgrows.decl?_eq_of_nil hx)
  | @var p s s₁ s' id rest hvar hrest ih =>
      have hgrows := hvar.grows hp
      have hafter := (hrest.grows hgrows.scope_lt).arena
      refine (hvar.tiles.congr ?_).append (ih hgrows.scope_lt)
      intro x _ hx
      exact Arena.children_congr (hafter.decl?_eq_of_nil hx)
  | expr _ _ ih => exact ih hp
  | ret _ _ _ _ ih => exact ih hp
  | retValue _ _ _ _ _ _ ih => exact ih hp

theorem Arena.Signed.tiles {a : Arena} {context id : DeclId} {f : Func}
    (h : a.Signed context id f) : a.Tiles f.params (id + 1) a.size := by
  rw [h.params_eq, h.size_eq]
  refine .of_leaves ?_
  intro x hx hx'
  obtain ⟨name, ty, hd⟩ := h.param x hx (h.size_eq ▸ hx')
  exact children_of_decl? hd

theorem FuncStep.tiles {p : Place} {s s' : Store} {id : DeclId} (h : FuncStep p s id s')
    (hs : s.Between p) : s'.arena.Tiles [id] s.arena.size s'.arena.size := by
  cases h with
  | prototype hsignature =>
      obtain ⟨f, hsigned⟩ := hsignature.exists_signed hs.bounded hs.scope_lt hs.context_lt
      obtain ⟨name, hd⟩ := hsigned.func
      rw [← hsignature.id_eq]
      refine .cons ?_ .nil
      rw [Arena.children_of_decl? hd]
      simpa [DeclKind.children, hsigned.body_eq, Stmt.declsAll] using hsigned.tiles
  | @definition s₁ s₂ f body hsignature _ hfunc hbody =>
      obtain ⟨g, hsigned⟩ := hsignature.exists_signed hs.bounded hs.scope_lt hs.context_lt
      obtain rfl := hsigned.eq_of_func hfunc
      have hinside := Place.inside_lt_revealedAll p s₁ f.params
      have hgrows := (hbody.grows hinside).arena
      have hkind := hbody.kind?_setBody hinside hfunc body
      -- Nothing but the function itself changes when its body is stored.
      have hstored : ∀ x, id < x →
          (s₂.mapFunc id fun f => { f with body := some body }).arena.children x =
            s₂.arena.children x := by
        intro x hx
        refine Arena.children_congr ?_
        rw [Store.decl?_mapFunc, if_neg (Nat.ne_of_gt hx)]
      have hid : id < s₁.arena.size := by
        obtain ⟨name, hd⟩ := hsigned.func
        exact Arena.decl?_eq_some_lt hd
      rw [← hsignature.id_eq]
      refine .cons ?_ .nil
      rw [Store.arena_closed, Arena.children, hkind, Store.size_mapFunc]
      refine (hsigned.tiles.congr ?_).append ((hbody.tiles hinside).congr ?_)
      · intro x hx hx'
        rw [hstored x hx]
        exact Arena.children_congr (hgrows.decl?_eq_of_nil hx')
      · intro x hx _
        exact hstored x (Nat.lt_of_lt_of_le hid hx)

theorem Runs.tiles {step : Place → Store → DeclId → Store → Prop} (hstep : Growing step)
    (htiles : ∀ {p s id s'}, step p s id s' → s.Between p →
      s'.arena.Tiles [id] s.arena.size s'.arena.size)
    {p : Place} {s s' : Store} {ids : List DeclId} (h : Runs (step p) s ids s')
    (hs : s.Between p) : s'.arena.Tiles ids s.arena.size s'.arena.size := by
  induction h with
  | nil => exact .nil
  | cons hfirst hrest ih =>
      have hs₁ := hstep.between hfirst hs
      have hgrows := (hrest.grows hstep.grows hs₁.scope_lt).arena
      refine ((htiles hfirst hs).congr ?_).append (ih hs₁)
      -- The context itself lies before all of its members.
      intro x hx hx'
      exact Arena.children_congr
        (hgrows.decl?_eq_of_ne hx' (Nat.ne_of_gt (Nat.lt_of_lt_of_le hs.context_lt hx)))

theorem MemberStep.tiles {p : Place} {s s' : Store} {id : DeclId} (h : MemberStep p s id s')
    (hs : s.Between p) : s'.arena.Tiles [id] s.arena.size s'.arena.size := by
  cases h with
  | field hfield =>
      cases hfield with
      | @mk name ty =>
          have hleaf := Arena.children_of_decl? (hs.decl?_member name (.field ty))
          simpa using Arena.Tiles.one hleaf
  | func hfunc => exact hfunc.tiles hs

theorem EnumeratorStep.tiles {p : Place} {s s' : Store} {id : DeclId}
    (h : EnumeratorStep p s id s') (hs : s.Between p) :
    s'.arena.Tiles [id] s.arena.size s'.arena.size := by
  cases h with
  | @mk name value =>
      have hleaf := Arena.children_of_decl? (hs.decl?_member name (.enumerator value))
      simpa using Arena.Tiles.one hleaf

theorem TagStep.tiles {kind : TagKind} {member : Place → Store → DeclId → Store → Prop}
    (hmember : Growing member)
    (htiles : ∀ {p s id s'}, member p s id s' → s.Between p →
      s'.arena.Tiles [id] s.arena.size s'.arena.size)
    {p : Place} {s s' : Store} {id : DeclId} (h : TagStep kind member p s id s')
    (hs : s.Between p) : s'.arena.Tiles [id] s.arena.size s'.arena.size := by
  cases h with
  | @mk name members s₁ _ hmembers =>
      have hinside := hs.inside name kind
      have hgrows := (hmembers.grows hmember.grows hinside.scope_lt).arena
      have hlist : (s₁.closed s.scopes.size).arena.members? s.arena.size = some members :=
        hgrows.members?_context (hs.members?_tagged name kind)
      have hrun := hmembers.tiles hmember htiles hinside
      refine .cons ?_ .nil
      rw [Arena.children_of_members? hlist]
      simpa [Store.tagged] using hrun

theorem ItemStep.tiles {p : Place} {s s' : Store} {id : DeclId} (h : ItemStep p s id s')
    (hs : s.Between p) : s'.arena.Tiles [id] s.arena.size s'.arena.size := by
  cases h with
  | classItem hclass => exact hclass.tiles MemberStep.growing MemberStep.tiles hs
  | enumItem henum => exact henum.tiles EnumeratorStep.growing EnumeratorStep.tiles hs
  | func hfunc => exact hfunc.tiles hs
  | @var s₁ hvar =>
      rw [Store.size_enlisted]
      refine hvar.tiles.congr ?_
      intro x hx _
      refine Arena.children_congr ?_
      rw [Store.decl?_enlisted, if_neg (Nat.ne_of_gt (Nat.lt_of_lt_of_le hs.context_lt hx))]

/-! ## Units -/

/-- Accepted units lie in preorder. -/
theorem preorder_of_analyze {tokens : List Token} {a : Arena} (h : analyze tokens = .ok a) :
    a.Preorder := by
  obtain ⟨ids, s, hrun, rfl⟩ := exists_run_of_analyze h
  have htiles := Runs.tiles ItemStep.growing ItemStep.tiles hrun .empty
  have hgrows := (Runs.grows ItemStep.grows hrun (by decide)).arena
  have hmembers : s.arena.members? Arena.root = some ids := hgrows.members?_context rfl
  refine Arena.preorder_of_tiles (.cons ?_ .nil) (Nat.lt_of_lt_of_le Nat.zero_lt_one hgrows.size_le)
  rw [Arena.children_of_members? hmembers]
  exact htiles

/-- `class C { let vi8 x; func f(bool b) { let bool c = b; { return; } } } enum E { A, B }` -/
theorem preorder_nested_unit : ∃ a, analyze
    [.keyword .classKw, .name "C", .mark .lbrace, .keyword .letKw, .builtin .vi8, .name "x",
      .mark .semi, .keyword .funcKw, .name "f", .mark .lparen, .builtin .bool, .name "b",
      .mark .rparen, .mark .lbrace, .keyword .letKw, .builtin .bool, .name "c", .operator .assign,
      .name "b", .mark .semi, .mark .lbrace, .keyword .returnKw, .mark .semi, .mark .rbrace,
      .mark .rbrace, .mark .rbrace, .keyword .enumKw, .name "E", .mark .lbrace, .name "A",
      .mark .comma, .name "B", .mark .rbrace] = .ok a ∧ a.Preorder :=
  Check.exists_ok_and (by decide +kernel) fun _ => preorder_of_analyze

end UnitAnalysis
