import FileCourier.LocalRoots
import FileCourier.Proofs.Yaml

/-!
# What an external classifier gives

A document whose classes are the keys of a mapping, or the items of a list, gives their names in
document order to the environment that it names; a text that lists no classes gives nothing. Only a
class that has no text makes reading fail (`classes_read`), which a text from outside can do
(`nested_class_unread`).
-/

namespace FileCourier.NodeClasses

/-- The nodes of a collection, in document order: the keys of a mapping, or the items of a list. -/
inductive Lists : Yaml → List Yaml → Prop
  | keys (entries : List (Yaml × Yaml)) : Lists (.map entries) (entries.map (·.1))
  | items (items : List Yaml) : Lists (.list items) items

/-- The nodes that a document lists as its classes. -/
def Classifies (doc : Yaml) (nodes : List Yaml) : Prop :=
  ∃ classes, doc.get? "classes" = some classes ∧ Lists classes nodes

/-- The environment of a document: the scalar that it names, or else the base. -/
inductive InEnvironment (doc : Yaml) : Bytes → Prop
  | named {env : Bytes} : doc.get? "environment" = some (.scalar env) → InEnvironment doc env
  | base : (∀ env, doc.get? "environment" ≠ some (.scalar env)) → InEnvironment doc "base"

variable {l : Yaml.Library} {doc classes : Yaml} {nodes : List Yaml} {names : List Bytes}
  {env : Bytes} {e : YamlError}

theorem environment_eq (h : InEnvironment doc env) : environment doc = env := by
  cases h with
  | named henv => rw [environment, henv]
  | base hnone =>
    rw [environment]
    split
    · rename_i text htext
      exact absurd htext (hnone text)
    · rfl

theorem names?_of_lists (h : Lists classes nodes) :
    names? l classes = (nodes.mapM l.asText).map some := by
  cases h <;> rfl

/-- What is no collection names no classes. -/
theorem names?_eq_none (h : ∀ nodes, ¬Lists classes nodes) : names? l classes = .ok none := by
  cases classes with
  | null | scalar text => rfl
  | list items => exact absurd (.items items) (h items)
  | map entries => exact absurd (.keys entries) (h _)

/-! ## Reading a document -/

variable {text : Bytes}

theorem read_of_classifies (hparse : l.parse text = .ok doc) (h : Classifies doc nodes) :
    read l text = (nodes.mapM l.asText).map fun names => .ofList [(environment doc, names)] := by
  obtain ⟨classes, hclasses, hlists⟩ := h
  rw [read, hparse]
  dsimp only
  rw [hclasses]
  dsimp only
  rw [names?_of_lists hlists]
  cases nodes.mapM l.asText <;> rfl

theorem read_of_not_classifies (h : ∀ doc nodes, l.parse text = .ok doc → ¬Classifies doc nodes) :
    read l text = .ok .empty := by
  rw [read]
  cases hparse : l.parse text with
  | error e => rfl
  | ok doc =>
    cases hclasses : doc.get? "classes" with
    | none => simp only [hclasses]
    | some classes =>
      have hnone := names?_eq_none (l := l) fun nodes hlists =>
        h doc nodes hparse ⟨classes, hclasses, hlists⟩
      simp only [hclasses, hnone]
      rfl

/-- A text fails to be read because of one of its classes. -/
theorem read_eq_error_iff : read l text = .error e ↔
    e = .badConversion ∧ ∃ doc nodes node, l.parse text = .ok doc ∧ Classifies doc nodes ∧
      node ∈ nodes ∧ ∀ t, ¬l.IsText node t := by
  constructor
  · intro h
    by_cases hclassifies : ∃ doc nodes, l.parse text = .ok doc ∧ Classifies doc nodes
    · obtain ⟨doc, nodes, hparse, hnodes⟩ := hclassifies
      rw [read_of_classifies hparse hnodes] at h
      cases hnames : nodes.mapM l.asText with
      | ok names => rw [hnames] at h; cases h
      | error e' =>
        rw [hnames] at h
        cases h
        obtain ⟨he, node, hnode, hnone⟩ := Yaml.Library.mapM_asText_eq_error_iff.1 hnames
        exact ⟨he, doc, nodes, node, hparse, hnodes, hnode, hnone⟩
    · rw [read_of_not_classifies fun doc nodes hparse hnodes =>
        hclassifies ⟨doc, nodes, hparse, hnodes⟩] at h
      cases h
  · rintro ⟨he, doc, nodes, node, hparse, hnodes, hnode, hnone⟩
    rw [read_of_classifies hparse hnodes,
      Yaml.Library.mapM_asText_eq_error_iff.2 ⟨he, node, hnode, hnone⟩]
    rfl

/-- What any text is read as. Every scalar has its text; whether a null has one is up to the library. -/
theorem classes_read (l : Yaml.Library) (text : Bytes) :
    (∀ doc nodes names env, l.parse text = .ok doc → Classifies doc nodes →
      List.Forall₂ l.IsText nodes names → InEnvironment doc env →
        ∃ m, read l text = .ok m ∧ m.toList = [(env, names)]) ∧
    ((∀ doc nodes, l.parse text = .ok doc → ¬Classifies doc nodes) → read l text = .ok .empty) ∧
    ∀ e, read l text = .error e ↔
      e = .badConversion ∧ ∃ doc nodes node, l.parse text = .ok doc ∧ Classifies doc nodes ∧
        node ∈ nodes ∧ ∀ t, ¬l.IsText node t := by
  refine ⟨fun doc nodes names env hparse hnodes hnames henv => ?_, read_of_not_classifies,
    fun e => read_eq_error_iff⟩
  refine ⟨.ofList [(env, names)], ?_, rfl⟩
  rw [read_of_classifies hparse hnodes, Yaml.Library.mapM_asText_eq_ok_iff.2 hnames,
    environment_eq henv]
  rfl

/-- The answer `{"classes": {"ntp": {}, "dns": [1]}, "environment": prod}`. -/
def twoClasses : Bytes :=
  "\x7b\"classes\": \x7b\"ntp\": \x7b\x7d, \"dns\": [1]\x7d, \"environment\": prod\x7d"

/-- The keys are the classes, whatever stands at them. -/
theorem classes_read_twoClasses :
    ∃ doc, Yaml.flow.parse twoClasses = .ok doc ∧ Classifies doc (["ntp", "dns"].map Yaml.scalar) ∧
      InEnvironment doc "prod" ∧
      ∃ m, read Yaml.flow twoClasses = .ok m ∧
        m.toList = ([("prod", ["ntp", "dns"])] : List (Bytes × List Bytes)) := by
  have hparse : Yaml.flow.parse twoClasses = .ok (.map [
      (.scalar "classes", .map [(.scalar "ntp", .map []), (.scalar "dns", .list [.scalar "1"])]),
      (.scalar "environment", .scalar "prod")]) := by rfl
  have hclasses := Lists.keys [(.scalar "ntp", .map []), (.scalar "dns", .list [.scalar "1"])]
  exact ⟨_, hparse, ⟨_, by rfl, hclasses⟩, .named (by rfl),
    (classes_read Yaml.flow twoClasses).1 _ _ ["ntp", "dns"] _ hparse ⟨_, by rfl, hclasses⟩
      (Yaml.Library.forall₂_isText_scalar ["ntp", "dns"]) (.named (by rfl))⟩

/-- The classes `[["nested"]]` are an error where every text should be read. -/
theorem nested_class_unread : ¬∀ text, ∃ m, read Yaml.flow text = .ok m := by
  intro h
  obtain ⟨m, hm⟩ := h "\x7b\"classes\": [[\"nested\"]]\x7d"
  have herror : read Yaml.flow "\x7b\"classes\": [[\"nested\"]]\x7d" = .error .badConversion := by rfl
  rw [herror] at hm
  cases hm

end FileCourier.NodeClasses
