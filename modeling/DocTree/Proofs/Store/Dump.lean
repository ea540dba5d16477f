import DocTree.Codec.Dump
import DocTree.Proofs.Store.Ways
/-!
What is encoded from the store is what the tree in it is written as. Without a cycle that is so whatever comes
of it; with one, nothing that is encoded ever comes of it.
-/

namespace DocTree

theorem Element.eq_list {S M : Type} {e : Element S M} (h : e.kind = .list) : ∃ nodes, e = .list nodes := by
  cases e with
  | list nodes => exact ⟨nodes, rfl⟩
  | text kind | mark kind | wrap kind | items kind | box kind | verbatim kind | raw kind
  | target kind => cases kind <;> exact absurd h nofun
  | _ => exact absurd h nofun

namespace Codec

/-- An account of what may fail, by its results. -/
def whenOk : Account Encoded Unit where
  Yields x Q := ∀ a, x = .ok a → Q () a
  pure := by
    rintro α a Q known _ ⟨⟩
    exact known ()
  bind := by
    rintro α β x f Q Q' known later b ran
    cases x with
    | error fault => cases ran
    | ok a => exact later a b ran (known a rfl)

section

variable {β : Type} {e : Element (List β) (Mapping β)} {encoded encoded' : β → Encoded Json} {j : Json}

theorem encodeShape_written (written : encodeShape (e.mapChildren encoded) = .ok j) :
    e.kind ≠ .document ∧ e.kind ≠ .list ∧ ∀ b ∈ e.children, ∃ i, encoded b = .ok i := by
  have inner : e.kind ≠ .document := by
    intro isDocument
    obtain ⟨version, metadata, blocks, rfl⟩ := Element.eq_document isDocument
    cases written
  have named : e.kind ≠ .list := by
    intro isList
    obtain ⟨nodes, rfl⟩ := Element.eq_list isList
    cases written
  have member (b : β) : whenOk.Yields (id (encoded b)) fun _ i => Except.ok i = encoded b :=
    fun i known => known.symm
  have sequences (bs : List β) : whenOk.Yields (listOfEncoded (bs.map encoded)) fun _ js =>
      js.map .ok = bs.map encoded := whenOk.mapM fun b _ => member b
  have mappings (m : Mapping β) : whenOk.Yields (entriesOfEncoded (m.map fun e => (e.1, encoded e.2)))
      fun _ entries => (entries.map fun e => (e.1, .ok e.2)) = m.map fun e => (e.1, encoded e.2) := by
    refine whenOk.mapM fun entry _ => ?_
    exact whenOk.map (member entry.2) fun _ i known => congrArg (entry.1, ·) known
  have traversed := Element.yields .written named (fun bs _ => sequences bs) fun m _ => mappings m
  rw [encodeShape_traverse (by rwa [Element.kind_mapChildren]) (by rwa [Element.kind_mapChildren])] at written
  cases shape : (e.mapChildren encoded).traverse .written listOfEncoded entriesOfEncoded with
  | error fault =>
    rw [shape] at written
    cases written
  | ok e' =>
    have same : e'.mapChildren .ok = e.mapChildren encoded := traversed e' shape
    refine ⟨inner, named, fun b child => ?_⟩
    have isWritten : encoded b ∈ e'.children.map .ok := by
      rw [← Element.children_mapChildren, same, Element.children_mapChildren]
      exact List.mem_map_of_mem child
    obtain ⟨i, _, known⟩ := List.mem_map.mp isWritten
    exact ⟨i, known.symm⟩

theorem encodeShape_of_ok (written : encodeShape (e.mapChildren encoded) = .ok j)
    (agree : ∀ b ∈ e.children, ∀ i, encoded b = .ok i → encoded' b = .ok i) :
    encodeShape (e.mapChildren encoded') = .ok j := by
  obtain ⟨inner, named, each⟩ := encodeShape_written written
  let result (b : β) : Json := (encoded b).toOption.getD .null
  have known : ∀ b ∈ e.children, encoded b = .ok (result b) := by
    intro b child
    obtain ⟨i, isOk⟩ := each b child
    simp only [result, isOk]
    rfl
  rw [encodeShape_mapChildren inner named known] at written
  rw [encodeShape_mapChildren inner named fun b child => agree b child _ (known b child)]
  exact written

theorem mapM_of_ok {ε α γ : Type} {f g : α → Except ε γ} (agree : ∀ a c, f a = .ok c → g a = .ok c) {as : List α}
    {cs : List γ} (done : as.mapM f = .ok cs) : as.mapM g = .ok cs := by
  induction as generalizing cs with
  | nil => exact done
  | cons a rest ih =>
    rw [List.mapM_cons] at done ⊢
    obtain ⟨c, first, done⟩ := of_bind_ok done
    obtain ⟨later, others, done⟩ := of_bind_ok done
    simp only [agree a c first, ih others]
    exact done

/-- What a root is written as whose children are written so, and which is written so unless it is a
document. -/
def encodeTop (encoded : β → Encoded Json) (inner : Encoded Json) : Element (List β) (Mapping β) → Encoded Json
  | .document version metadata blocks => do
    let entries ← entriesOfEncoded (metadata.map fun (key, b) => (key, encoded b))
    let blocks ← blocks.mapM encoded
    return documentJson version entries blocks
  | _ => inner

theorem encodeTop_ok {inner inner' : Encoded Json} (agree : ∀ b i, encoded b = .ok i → encoded' b = .ok i)
    (agreeInner : inner = .ok j → inner' = .ok j) (written : encodeTop encoded inner e = .ok j) :
    encodeTop encoded' inner' e = .ok j := by
  cases e with
  | document version metadata blocks =>
    obtain ⟨entries, values, written⟩ := of_bind_ok written
    obtain ⟨js, body, written⟩ := of_bind_ok written
    rw [entriesOfEncoded, List.mapM_map] at values
    have later : (metadata.map fun (key, b) => (key, encoded' b)).mapM entryOfEncoded = .ok entries := by
      rw [List.mapM_map]
      refine mapM_of_ok (fun entry a known => ?_) values
      obtain ⟨i, value, known⟩ := of_bind_ok known
      obtain rfl := Except.ok.inj known
      have value : encoded entry.2 = .ok i := value
      simp only [Function.comp_apply, entryOfEncoded, agree entry.2 i value]
      rfl
    simp only [encodeTop, entriesOfEncoded, later, mapM_of_ok agree body]
    exact written
  | _ => exact agreeInner written

theorem encodeTop_congr {inner inner' : Encoded Json} (agree : ∀ b ∈ e.children, encoded b = encoded' b)
    (agreeInner : inner = inner') : encodeTop encoded inner e = encodeTop encoded' inner' e := by
  cases e with
  | document version metadata blocks =>
    have values : metadata.map (fun (key, b) => (key, encoded b)) =
        metadata.map fun (key, b) => (key, encoded' b) := by
      refine List.map_congr_left fun entry member => congrArg (entry.1, ·) (agree entry.2 ?_)
      exact Element.mapping_children List.mem_cons_self member
    have body : blocks.mapM encoded = blocks.mapM encoded' := by
      refine mapM_congr fun b member => agree b ?_
      exact Element.sequence_children (by simp [Element.slots]) member
    rw [encodeTop, encodeTop, values, body]
  | _ => exact agreeInner

end

end Codec

namespace Store

variable {s : Store} {root : Root} {n : NodeId} {j : Json}

/-- The element of a node with the nodes in its containers. -/
def shape (s : Store) (n : NodeId) : Element (List NodeId) (Mapping NodeId) := (s.element n).map s.sequence s.mapping

theorem children_shape (s : Store) (n : NodeId) : (s.shape n).children = s.children n := by
  rw [shape, Element.children, Element.slots_map, List.flatMap_map]
  exact List.flatMap_congr fun slot _ => by cases slot <;> rfl

theorem encodeWithin_succ (s : Store) (fuel : Nat) (n : NodeId) :
    s.encodeWithin (fuel + 1) n = Codec.encodeShape ((s.shape n).mapChildren (s.encodeWithin fuel)) := by
  rw [encodeWithin, shape, Element.mapChildren, Element.map_map]
  rfl

theorem encodeElement_nodeWithin (s : Store) (fuel : Nat) (n : NodeId) :
    Codec.encodeElement (s.nodeWithin (fuel + 1) n) =
      Codec.encodeShape ((s.shape n).mapChildren fun m => Codec.encodeElement (s.nodeWithin fuel m)) := by
  rw [nodeWithin, Codec.encodeElement, Node.fold_mapChildren]
  simp only [shape, Element.mapChildren, Element.map_map, Function.comp_def, List.map_map]
  rfl

theorem encodeWithin_ok {fuel : Nat} (written : s.encodeWithin fuel n = .ok j) :
    Codec.encodeElement (s.nodeWithin fuel n) = .ok j := by
  induction fuel generalizing n j with
  | zero => cases written
  | succ fuel ih =>
    rw [encodeWithin_succ] at written
    rw [encodeElement_nodeWithin]
    exact Codec.encodeShape_of_ok written fun m _ i => ih

/-- Where no way is longer than the fuel, nothing is cut off. -/
theorem encodeWithin_eq {fuel : Nat} (enough : ∀ k m, s.Way k n m → k < fuel) :
    s.encodeWithin fuel n = Codec.encodeElement (s.nodeWithin fuel n) := by
  induction fuel generalizing n with
  | zero => exact absurd (enough 0 n (.here n)) (Nat.not_lt_zero 0)
  | succ fuel ih =>
    rw [encodeWithin_succ, encodeElement_nodeWithin]
    by_cases isList : (s.shape n).kind = .list
    · obtain ⟨nodes, same⟩ := Element.eq_list isList
      rw [same]
      rfl
    have each : ∀ m ∈ (s.shape n).children, s.encodeWithin fuel m = Codec.encodeElement (s.nodeWithin fuel m) := by
      intro m child
      rw [children_shape] at child
      refine ih fun k x way => ?_
      exact Nat.lt_of_succ_lt_succ (enough (k + 1) x (.down child way))
    refine congrArg Codec.encodeShape (Element.map_congr isList (fun ns slot => ?_) fun m slot => ?_)
    · exact List.map_congr_left fun m member => each m (Element.sequence_children slot member)
    · exact List.map_congr_left fun entry member =>
      congrArg (entry.1, ·) (each entry.2 (Element.mapping_children slot member))

theorem encodeFrom_node (s : Store) (id : NodeId) : s.encodeFrom (.node id) =
    Codec.encodeTop (s.encodeWithin s.records.size) (s.encodeWithin (s.records.size + 1) id) (s.shape id) := by
  cases element : s.element id with
  | document version metadata blocks =>
    simp only [encodeFrom, element, shape, Element.map, Codec.encodeTop]
  | _ => simp only [encodeFrom, element, shape, Element.map, Codec.encodeTop]

theorem encode_tree (s : Store) (id : NodeId) : Codec.encode (s.tree (.node id)) =
    Codec.encodeTop (fun n => Codec.encodeElement (s.nodeWithin s.records.size n))
      (Codec.encodeElement (s.nodeWithin (s.records.size + 1) id)) (s.shape id) := by
  have read : s.nodeWithin (s.records.size + 1) id =
      .mk ((s.shape id).mapChildren (s.nodeWithin s.records.size)) := by
    rw [nodeWithin, shape, Element.mapChildren, Element.map_map]
    rfl
  rw [tree, node, read]
  cases s.shape id with
  | document version metadata blocks =>
    simp only [Element.mapChildren, Element.map, Codec.encode, Codec.encodeTop, List.map_map, List.mapM_map]
    rfl
  | _ => rfl

/-- What comes of encoding what is in the store is what the tree there is written as. -/
theorem encodeFrom_ok (written : s.encodeFrom root = .ok j) : Codec.encode (s.tree root) = .ok j := by
  cases root with
  | list id =>
    obtain ⟨js, each, rfl⟩ := of_map_ok written
    have same := Codec.mapM_of_ok (fun n i (ran : s.encodeWithin _ n = .ok i) => encodeWithin_ok ran) each
    rw [tree, Codec.encode, List.mapM_map]
    exact congrArg (Json.arr <$> ·) same
  | node id =>
    rw [encodeFrom_node] at written
    rw [encode_tree]
    exact Codec.encodeTop_ok (fun n i => encodeWithin_ok) encodeWithin_ok written

/-- Where there is no cycle, the encoder comes to an end, and a tree is what it writes. -/
theorem encodeFrom_eq (acyclic : s.Acyclic root) : s.encodeFrom root = Codec.encode (s.tree root) := by
  cases root with
  | list id =>
    have each : ∀ n ∈ s.sequence id, s.encodeWithin (s.records.size + 1) n = Codec.encodeElement (s.node n) := by
      intro n member
      exact encodeWithin_eq fun k m way => Nat.lt_succ_of_le ((acyclic n member).way_le way)
    rw [encodeFrom, tree, Codec.encode, List.mapM_map]
    exact congrArg (Json.arr <$> ·) (Codec.mapM_congr each)
  | node id =>
    have finite : s.Finite id := .intro trivial acyclic
    have each : ∀ n ∈ (s.shape id).children,
        s.encodeWithin s.records.size n = Codec.encodeElement (s.nodeWithin s.records.size n) := by
      intro n child
      rw [children_shape] at child
      exact encodeWithin_eq fun k m way => finite.way_le (.down child way)
    rw [encodeFrom_node, encode_tree]
    exact Codec.encodeTop_congr each (encodeWithin_eq fun k m way => Nat.lt_succ_of_le (finite.way_le way))

end Store

namespace Codec

variable [Stack] {s : Store} {root : Root} {j : Json}

theorem dump_eq (s : Store) (root : Root) : dump s root =
    if Stack.encodes s root then s.encodeFrom root >>= fun j => if j.isPrintable then .ok j else .error .unprintable
    else .error .recursion := by
  rw [dump]
  cases Stack.encodes s root with
  | false => rfl
  | true =>
    cases s.encodeFrom root with
    | error fault => rfl
    | ok j => cases j.isPrintable <;> simp <;> rfl

theorem dump_ok (dumped : dump s root = .ok j) : s.encodeFrom root = .ok j ∧ j.isPrintable = true := by
  rw [dump_eq] at dumped
  split at dumped
  · obtain ⟨i, encoded, dumped⟩ := of_bind_ok dumped
    split at dumped
    · next printable =>
      cases dumped
      exact ⟨encoded, printable⟩
    · cases dumped
  · cases dumped

end Codec

end DocTree
