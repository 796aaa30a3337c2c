import ScalaRs.SexpPackets
import Mathlib.Data.List.Forall2

/-! # Reading the engine's nodes

Nodes are made when they are first asked for, and a list moves its cursor from
sibling to sibling. A client asks for children of the nodes it holds, in any order;
what it sees is what it would see of the tree. -/
namespace ScalaRs.Wire
open CodeUnits

/-- What a client sees of a node. -/
inductive View (U : Type)
  | atom (a : List U)
  | str (s : List U)
  | list (size : ℕ)

def Sexp.view {U : Type} : Sexp U → View U
  | .atom a => .atom a
  | .str s => .str s
  | .list items => .list items.length

def Sexp.child {U : Type} : Sexp U → ℕ → Option (Sexp U)
  | .list items, index => items[index]?
  | _, _ => none

/-- A client that holds trees asks one of them for a child. -/
def askTree {U : Type} (held : List (Sexp U)) (request : ℕ × ℕ) : List (Sexp U) :=
  match held[request.1]?.bind fun t => t.child request.2 with
  | some t => held ++ [t]
  | none => held

/-- The places of the nodes a client holds, and the nodes made so far. -/
structure Session (U : Type) where
  held : List ℕ
  nodes : Nodes U

section Reading

variable {U : Type} [CodeUnit U]

/-- The kind of a text is in the table. -/
def Packet.view (p : Packet U) (nodes : Nodes U) (place : ℕ) : Option (View U) :=
  (nodes place).bind fun node => p.spans[place]?.map fun sp =>
    match node with
    | .text a => if sp.children = -2 then .atom a else .str a
    | .list _ _ items => .list items.length

/-- A client asks the node it holds at `request.1` for its child `request.2`. -/
def Session.ask (p : Packet U) (s : Session U) (request : ℕ × ℕ) : Session U :=
  match s.held[request.1]?.bind fun place => p.get s.nodes place request.2 with
  | some (child, nodes) => ⟨s.held ++ [child], nodes⟩
  | none => s

def Session.views (p : Packet U) (s : Session U) : List (Option (View U)) :=
  s.held.map (p.view s.nodes)

/-! ## Cursors -/

omit [CodeUnit U] in
theorem advance_add (p : Packet U) (m n cursor : ℕ) :
    p.advance (m + n) cursor = (p.advance m cursor).bind (p.advance n) := by
  induction m generalizing cursor with
  | zero => rw [Nat.zero_add, Packet.advance, Option.bind_some]
  | succ m ih =>
    rw [Nat.succ_add, Packet.advance, Packet.advance]
    cases p.spans[cursor]? with
    | none => rfl
    | some sp => exact ih sp.next

/-- The cursor of a list is at one of its children. -/
def Children.Points (p : Packet U) (items : Children) : Prop :=
  p.advance items.cursorIndex items.first = some items.cursor

omit [CodeUnit U] in
theorem seek_eq {p : Packet U} {items : Children} (h : items.Points p) (index : ℕ) :
    p.seek items index = (p.advance index items.first).map fun cursor =>
      { items with cursor := cursor, cursorIndex := index } := by
  rw [Packet.seek]
  split
  · -- back to the first child
    rfl
  · next hle =>
    have hadd : items.cursorIndex + (index - items.cursorIndex) = index := by omega
    rw [← hadd, advance_add, h, Option.bind_some, hadd]

/-- The block of a child is where its siblings lead. -/
theorem Blocks.child {p : Packet U} {first next : ℕ} {ts : List (Sexp U)}
    (h : Blocks p.text p.spans first ts next) {index : ℕ} {t : Sexp U} (ht : ts[index]? = some t) :
    ∃ place after, p.advance index first = some place ∧ Block p.text p.spans place t after := by
  induction index generalizing first ts with
  | zero =>
    cases h with
    | nil => cases ht
    | cons hb hbs =>
      cases ht
      exact ⟨_, _, rfl, hb⟩
  | succ index ih =>
    cases h with
    | nil => cases ht
    | cons hb hbs =>
      obtain ⟨place, after, hplace, hblock⟩ := ih hbs ht
      refine ⟨place, after, ?_, hblock⟩
      rw [Packet.advance]
      cases hb with
      | atom hsp _ => rw [hsp, Option.bind_some, hplace]
      | str hsp _ => rw [hsp, Option.bind_some, hplace]
      | list hsp _ => rw [hsp, Option.bind_some, hplace]

/-! ## Nodes -/

/-- A node that was made at a place, wherever its cursor is now. -/
inductive Made (p : Packet U) (place : ℕ) : Node U → Prop
  | text {a} (h : p.makeNode place = some (.text a)) : Made p place (.text a)
  | list {start fin first size items} (h : p.makeNode place = some (.list start fin ⟨first, size, first, 0⟩))
    (hfirst : items.first = first) (hsize : items.length = size) (hc : items.Points p) :
    Made p place (.list start fin items)

/-- Every node is where it was made. -/
def Consistent (p : Packet U) (nodes : Nodes U) : Prop :=
  ∀ place node, nodes place = some node → Made p place node

theorem made_makeNode {p : Packet U} {place : ℕ} {node : Node U} (h : p.makeNode place = some node) :
    Made p place node := by
  cases node with
  | text a => exact .text h
  | list start fin items =>
    obtain ⟨sp, hsp, hnode⟩ := Option.map_eq_some_iff.mp h
    split at hnode
    · cases hnode
      exact .list h rfl rfl rfl
    · split at hnode <;> cases hnode

theorem Made.eq_text {p : Packet U} {place : ℕ} {node : Node U} {a : List U} (h : Made p place node)
    (hmake : p.makeNode place = some (.text a)) : node = .text a := by
  cases h with
  | text h' =>
    rw [hmake] at h'
    cases h'
    rfl
  | list h' =>
    rw [hmake] at h'
    cases h'

theorem Made.eq_list {p : Packet U} {place start fin first size : ℕ} {node : Node U}
    (h : Made p place node) (hmake : p.makeNode place = some (.list start fin ⟨first, size, first, 0⟩)) :
    ∃ items, node = .list start fin items ∧ items.first = first ∧ items.length = size ∧
      items.Points p := by
  cases h with
  | text h' =>
    rw [hmake] at h'
    cases h'
  | list h' hfirst hsize hc =>
    rw [hmake] at h'
    cases h'
    exact ⟨_, rfl, hfirst, hsize, hc⟩

theorem Consistent.update {p : Packet U} {nodes : Nodes U} (h : Consistent p nodes) {place : ℕ}
    {node : Node U} (hnode : Made p place node) :
    Consistent p (Function.update nodes place (some node)) := by
  intro other known hknown
  by_cases hother : other = place
  · rw [hother] at hknown ⊢
    rw [Function.update_self] at hknown
    cases hknown
    exact hnode
  · rw [Function.update_of_ne hother] at hknown
    exact h other known hknown

/-- Where a block is, a node can be made. -/
theorem Block.makeNode {p : Packet U} {place after : ℕ} {t : Sexp U}
    (h : Block p.text p.spans place t after) : ∃ node, p.makeNode place = some node := by
  rw [Packet.makeNode]
  cases h with
  | atom hsp _ => exact ⟨_, by rw [hsp, Option.map_some]⟩
  | str hsp _ => exact ⟨_, by rw [hsp, Option.map_some]⟩
  | list hsp _ => exact ⟨_, by rw [hsp, Option.map_some]⟩

theorem Block.makeNode_list {p : Packet U} {place after : ℕ} {ts : List (Sexp U)}
    (h : Block p.text p.spans place (.list ts) after) : ∃ start fin,
      p.makeNode place = some (.list start fin ⟨place + 1, ts.length, place + 1, 0⟩) ∧
      Blocks p.text p.spans (place + 1) ts after := by
  cases h with
  | @list _ start fin _ _ hsp hi =>
    refine ⟨start, fin, ?_, hi⟩
    rw [Packet.makeNode, hsp, Option.map_some, if_pos (Int.natCast_nonneg _), Int.toNat_natCast]

theorem Block.makeNode_text {p : Packet U} {place after : ℕ} {t : Sexp U}
    (h : Block p.text p.spans place t after) (hleaf : ∀ ts, t ≠ .list ts) :
    ∃ a, p.makeNode place = some (.text a) := by
  cases h with
  | atom hsp _ => exact ⟨_, by rw [Packet.makeNode, hsp, Option.map_some]; rfl⟩
  | str hsp _ => exact ⟨_, by rw [Packet.makeNode, hsp, Option.map_some]; rfl⟩
  | list hsp hi => exact absurd rfl (hleaf _)

/-- A node that was made shows the tree at its place. -/
theorem view_eq {p : Packet U} {nodes : Nodes U} {place after : ℕ} {t : Sexp U}
    (h : Block p.text p.spans place t after) (hc : Consistent p nodes)
    (hmade : nodes place ≠ none) : p.view nodes place = some t.view := by
  obtain ⟨node, hnode⟩ := Option.ne_none_iff_exists'.mp hmade
  have hm := hc place node hnode
  rw [Packet.view, hnode, Option.bind_some]
  cases h with
  | @atom _ start fin a hsp ha =>
    have hmake : p.makeNode place = some (.text a) := by
      rw [Packet.makeNode, hsp, Option.map_some, if_neg (show ¬ (-2 : ℤ) ≥ 0 by decide),
        if_pos rfl, ha]
    rw [hm.eq_text hmake, hsp]
    rfl
  | @str _ start fin s hsp hs =>
    have hmake : p.makeNode place = some (.text s) := by
      rw [Packet.makeNode, hsp, Option.map_some, if_neg (show ¬ (-1 : ℤ) ≥ 0 by decide),
        if_neg (show ¬ (-1 : ℤ) = -2 by decide), hs]
    rw [hm.eq_text hmake, hsp]
    rfl
  | list hsp hi =>
    obtain ⟨start, fin, hmake, _⟩ := (Block.list hsp hi).makeNode_list
    obtain ⟨items, hitems, _, hsize, _⟩ := hm.eq_list hmake
    rw [hitems, hsp, Option.map_some]
    simp only [hsize]
    rfl

/-- Asking for a node changes no node that was made. -/
theorem node_spec {p : Packet U} {nodes : Nodes U} {place after : ℕ} {t : Sexp U}
    (h : Block p.text p.spans place t after) (hc : Consistent p nodes) :
    ∃ node nodes', p.node nodes place = some (node, nodes') ∧ Consistent p nodes' ∧
      nodes' place ≠ none ∧ ∀ other, nodes other ≠ none → nodes' other ≠ none := by
  rw [Packet.node]
  cases hknown : nodes place with
  | some known =>
    refine ⟨known, nodes, rfl, hc, ?_, fun _ hother => hother⟩
    rw [hknown]
    exact Option.some_ne_none known
  | none =>
    obtain ⟨node, hnode⟩ := h.makeNode
    refine ⟨node, Function.update nodes place (some node), ?_, hc.update (made_makeNode hnode), ?_, ?_⟩
    · rw [hnode]
      rfl
    · rw [Function.update_self]
      exact Option.some_ne_none node
    · intro other hother
      rw [Function.update_of_ne]
      · exact hother
      · intro heq
        rw [heq] at hother
        exact hother hknown

/-- A child that is there is given, another request is refused. -/
theorem get_spec {p : Packet U} {nodes : Nodes U} {place after : ℕ} {t : Sexp U}
    (h : Block p.text p.spans place t after) (hc : Consistent p nodes)
    (hmade : nodes place ≠ none) (index : ℕ) :
    match t.child index with
    | none => p.get nodes place index = none
    | some child => ∃ at' next nodes', p.get nodes place index = some (at', nodes') ∧
        Block p.text p.spans at' child next ∧ Consistent p nodes' ∧ nodes' at' ≠ none ∧
        ∀ other, nodes other ≠ none → nodes' other ≠ none := by
  obtain ⟨node, hnode⟩ := Option.ne_none_iff_exists'.mp hmade
  have hm := hc place node hnode
  rw [Packet.get, hnode]
  cases t with
  | atom a =>
    obtain ⟨b, hb⟩ := h.makeNode_text (by simp)
    rw [hm.eq_text hb]
    rfl
  | str s =>
    obtain ⟨b, hb⟩ := h.makeNode_text (by simp)
    rw [hm.eq_text hb]
    rfl
  | list ts =>
    obtain ⟨start, fin, hmake, hi⟩ := h.makeNode_list
    obtain ⟨items, hitems, hfirst, hsize, hpoints⟩ := hm.eq_list hmake
    simp only [hitems, Sexp.child]
    cases hchild : ts[index]? with
    | none =>
      have hlen := List.getElem?_eq_none_iff.mp hchild
      exact if_pos (by omega)
    | some child =>
      have hlen := (List.getElem?_eq_some_iff.mp hchild).1
      obtain ⟨at', next, hat, hblock⟩ := hi.child hchild
      have hseek : p.seek items index = some { items with cursor := at', cursorIndex := index } := by
        rw [seek_eq hpoints, hfirst, hat, Option.map_some]
      have hmade' : Made p place (.list start fin { items with cursor := at', cursorIndex := index }) :=
        .list hmake hfirst hsize (by rw [Children.Points, hfirst, hat])
      obtain ⟨child', nodes', hget, hc', hmade'', hmono⟩ := node_spec hblock (hc.update hmade')
      refine ⟨at', next, nodes', ?_, hblock, hc', hmade'', ?_⟩
      · rw [if_neg (by omega), hseek, Option.bind_some, hget]
        rfl
      · intro other hother
        apply hmono
        by_cases heq : other = place
        · rw [heq, Function.update_self]
          exact Option.some_ne_none _
        · rwa [Function.update_of_ne heq]

/-! ## Sessions -/

/-- The nodes a client holds are those of the trees. -/
structure Session.Follows (p : Packet U) (s : Session U) (trees : List (Sexp U)) : Prop where
  consistent : Consistent p s.nodes
  held : List.Forall₂ (fun place t => s.nodes place ≠ none ∧ ∃ after, Block p.text p.spans place t after)
    s.held trees

theorem Session.Follows.ask {p : Packet U} {s : Session U} {trees : List (Sexp U)}
    (h : s.Follows p trees) (request : ℕ × ℕ) : (s.ask p request).Follows p (askTree trees request) := by
  rw [Session.ask, askTree]
  cases hheld : s.held[request.1]? with
  | none =>
    have htrees : trees[request.1]? = none := by
      rw [List.getElem?_eq_none_iff, ← h.held.length_eq]
      exact List.getElem?_eq_none_iff.mp hheld
    rw [htrees]
    exact h
  | some place =>
    obtain ⟨hlt, hplace⟩ := List.getElem?_eq_some_iff.mp hheld
    have hlt' : request.1 < trees.length := h.held.length_eq ▸ hlt
    obtain ⟨hmade, after, hblock⟩ := h.held.get hlt hlt'
    rw [List.get_eq_getElem, hplace] at hmade hblock
    rw [List.get_eq_getElem] at hblock
    rw [List.getElem?_eq_getElem hlt', Option.bind_some, Option.bind_some]
    have hget := get_spec hblock h.consistent hmade request.2
    cases hchild : trees[request.1].child request.2 with
    | none =>
      rw [hchild] at hget
      rw [hget]
      exact h
    | some child =>
      rw [hchild] at hget
      obtain ⟨at', next, nodes', hget, hblock', hc, hmade', hmono⟩ := hget
      rw [hget]
      refine ⟨hc, ?_⟩
      apply List.rel_append
      · exact h.held.imp fun other t hother => ⟨hmono other hother.1, hother.2⟩
      · exact .cons ⟨hmade', next, hblock'⟩ .nil

theorem Session.Follows.run {p : Packet U} (requests : List (ℕ × ℕ)) {s : Session U}
    {trees : List (Sexp U)} (h : s.Follows p trees) :
    (requests.foldl (Session.ask p) s).Follows p (requests.foldl askTree trees) := by
  induction requests generalizing s trees with
  | nil => exact h
  | cons request requests ih => exact ih (h.ask request)

theorem Session.Follows.views {p : Packet U} {s : Session U} {trees : List (Sexp U)}
    (h : s.Follows p trees) : s.views p = trees.map fun t => some t.view := by
  rw [Session.views, ← List.forall₂_eq_eq_eq, List.forall₂_map_left_iff, List.forall₂_map_right_iff]
  exact h.held.imp fun place t ⟨hmade, after, hblock⟩ => view_eq hblock h.consistent hmade

/-! ## The packet of a text -/

/-- Whatever a client asks for, the nodes show the tree. -/
def Yields (p : Packet U) (nodes : Nodes U) (t : Sexp U) : Prop :=
  ∀ requests : List (ℕ × ℕ), (requests.foldl (Session.ask p) ⟨[0], nodes⟩).views p =
    (requests.foldl askTree [t]).map fun t => some t.view

theorem yields_of_block {p : Packet U} {node : Node U} {t : Sexp U} {after : ℕ}
    (h : Block p.text p.spans 0 t after) (hnode : p.makeNode 0 = some node) :
    Yields p (Function.update (fun _ => none) 0 (some node)) t := by
  intro requests
  apply Session.Follows.views
  apply Session.Follows.run
  refine ⟨?_, ?_⟩
  · have hempty : Consistent p fun _ => none := by
      intro place known hknown
      cases hknown
    exact hempty.update (made_makeNode hnode)
  · apply List.Forall₂.cons _ .nil
    refine ⟨?_, after, h⟩
    change Function.update (fun _ => none) 0 (some node) 0 ≠ none
    rw [Function.update_self]
    exact Option.some_ne_none node

/-- The engine accepts the texts of one item within the limits. -/
theorem parsePacket_ok_of_reads {maxChars maxDepth : ℕ} {s rest : List U} {t : Sexp U}
    (hsize : s.length ≤ maxChars) (h : Reads maxDepth s 0 t rest) (hrest : skipSpaces rest = []) :
    ∃ p nodes, parsePacket maxChars maxDepth s = .ok (p, nodes) ∧ Yields p nodes t := by
  obtain ⟨q, hq⟩ := ((scan_iff maxDepth).1 ⟨s, [], 0⟩ 0).2 t rest h
  obtain ⟨t', hscanned⟩ := ((scan_iff maxDepth).1 ⟨s, [], 0⟩ 0).1 q hq
  obtain ⟨htt, hrest'⟩ := h.unique hscanned.reads
  rw [← htt] at hscanned
  have htext : q.text = s := hscanned.text
  have hblock : Block q.text q.spans 0 t q.spans.length := by
    rw [htext]
    exact hscanned.block
  obtain ⟨node, hnode⟩ := hblock.makeNode
  have hend : spacesEnd q.text q.position = s.length := by
    have hpos : q.position ≤ s.length := hscanned.position
    have hlen := (List.takeWhile_sublist (fun c : U => code c == 32) (l := s.drop q.position)).length_le
    have hnil : s.drop (spacesEnd s q.position) = [] := by
      rw [← skipSpaces_drop, ← hrest]
      exact congrArg skipSpaces hrest'.symm
    have hle := List.drop_eq_nil_iff.mp hnil
    rw [List.length_drop] at hlen
    rw [htext]
    simp only [spacesEnd] at hle ⊢
    omega
  refine ⟨q, Function.update (fun _ => none) 0 (some node), ?_, yields_of_block hblock hnode⟩
  rw [parsePacket, if_neg (by omega), hq]
  simp only [hend, ne_eq, not_true_eq_false, if_false, Packet.node, hnode, Option.map_some]

theorem reads_of_parsePacket_ok {maxChars maxDepth : ℕ} {s : List U} {r : Packet U × Nodes U}
    (h : parsePacket maxChars maxDepth s = .ok r) :
    s.length ≤ maxChars ∧ ∃ t rest, Reads maxDepth s 0 t rest ∧ skipSpaces rest = [] := by
  rw [parsePacket] at h
  split at h
  · cases h
  · next hsize =>
    refine ⟨Nat.not_lt.mp hsize, ?_⟩
    split at h
    · cases h
    · next q hq =>
      obtain ⟨t, hscanned⟩ := ((scan_iff maxDepth).1 ⟨s, [], 0⟩ 0).1 q hq
      have htext : q.text = s := hscanned.text
      split at h
      · cases h
      · next hend =>
        refine ⟨t, s.drop q.position, hscanned.reads, ?_⟩
        rw [skipSpaces_drop, ← htext, not_not.mp hend, htext, List.drop_length]

end Reading
end ScalaRs.Wire
