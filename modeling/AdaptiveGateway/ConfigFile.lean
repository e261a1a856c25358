/-
Loading `gateway.yaml`.

`Active` is what `load_route_rules` writes: `ROUTE_RULES`, `settings.upstream_services`
and `_loaded_yaml_path`.  The settings of the environment, the built-in rules and the
copy of the upstreams that is made at import are fixed and stand in `Environment`.
What the disk holds may be different at every call, and so may whether it can be read.

YAML's grammar and pydantic's validation are parameters, on which nothing is
assumed.  Either may raise anything.
-/
import AdaptiveGateway.ProxyHttp

namespace AdaptiveGateway
namespace ConfigFile

open Codec

/-! ## What a file can hold -/

section Values

variable (ω : Type)

/-- A key of a YAML mapping; all that matters of the other scalars is that they are no
strings. -/
inductive Key where
  | str (t : Text)
  | other (v : ω)
deriving DecidableEq

/-- A value as `yaml.safe_load` returns it. -/
inductive Yaml where
  | str (t : Text)
  | mapping (items : List (Key ω × Yaml))
  | sequence (items : List Yaml)
  | other (v : ω)

end Values

/-- The classes of exceptions, as the handler tells them apart. -/
inductive Raised where
  | yamlError
  /-- Also `UnicodeDecodeError` and pydantic's `ValidationError`. -/
  | valueError
  | typeError
  /-- `OSError`, `RecursionError` and the others that the handler lets pass. -/
  | other
deriving DecidableEq, Repr

/-- How `load_route_rules` fails. -/
inductive Failure where
  /-- The `ValueError` that it raises itself, with its message. -/
  | invalid (message : Text)
  | escaped (e : Raised)
deriving DecidableEq

variable {ω : Type}

structure Libraries (ω : Type) where
  /-- `yaml.safe_load`. -/
  safeLoad : Text → Except Raised (Yaml ω)
  /-- `RouteRule.model_validate`. -/
  modelValidate : Yaml ω → Except Raised RouteRule

/-- What a call finds on the disk. -/
structure Disk where
  /-- `_find_file("gateway.yaml")`. -/
  findFile : Except Raised (Option Text)
  /-- `read_text` of a path. -/
  readText : Text → Except Raised Text

/-- `_BUILTIN_RULES`. -/
def BUILTIN_RULES : RouteRules where
  rules := ⟨[("_default", { cacheable := true, cacheTtl := 60, optionalFields := [] }),
    ("jsonplaceholder",
      { cacheable := true, cacheTtl := 300, optionalFields := ["body", "completed"] })], by decide⟩
  default := { cacheable := true, cacheTtl := 60, optionalFields := [] }
  hasDefault := by decide

structure Environment where
  /-- The settings as they are before any file is read; their upstreams are
  `_ENV_UPSTREAMS`. -/
  settings : Settings
  gatewayConfigFile : Option Text := none
  netlocOk : Text → Bool
  recursionLimit : RecursionLimit

/-- The configuration before any file is read. -/
def Environment.config (env : Environment) : Config :=
  ⟨env.settings, BUILTIN_RULES, env.netlocOk, env.recursionLimit⟩

structure Active (ω : Type) where
  routeRules : Dict (Key ω) RouteRule
  upstreamServices : Dict Text Text
  loadedYamlPath : Option Text

/-! ## `load_route_rules` -/

section Load

variable [DecidableEq ω]

/-- `d.update(e)`. -/
def update {κ α : Type} [DecidableEq κ] (d e : Dict κ α) : Dict κ α :=
  e.items.foldl (fun d item => d.set item.1 item.2) d

/-- A fresh copy of `_BUILTIN_RULES`. -/
def builtinRules : Dict (Key ω) RouteRule :=
  Dict.ofPairs (BUILTIN_RULES.rules.items.map fun e => (.str e.1, e.2))

/-- The loop over the items of `raw_upstreams`. -/
def addUpstreams (env : Environment) :
    List (Key ω × Yaml ω) → Dict Text Text → Except Raised (Dict Text Text)
  | [], upstreams => .ok upstreams
  | (.str name, .str base) :: items, upstreams =>
    if validateUpstreamUrl env.config base then addUpstreams env items (upstreams.set name base)
    else .error .valueError
  | _ :: _, _ => .error .valueError

/-- `_parse_rules`. -/
def parseRules (lib : Libraries ω) : Yaml ω → Except Raised (Dict (Key ω) RouteRule)
  | .mapping raw => do
    let rules ← raw.mapM fun e => do
      let rule ← lib.modelValidate e.2
      pure (e.1, rule)
    pure (Dict.ofPairs rules)
  | _ => .error .valueError

/-- `document.get(name, {})`. -/
def getSection (document : List (Key ω × Yaml ω)) (name : Text) : Yaml ω :=
  (Dict.lookup (.str name) document).getD (.mapping [])

/-- What the `try` makes of a file: the rules and the upstreams. -/
def readFile (lib : Libraries ω) (env : Environment) (disk : Disk) (path : Text) :
    Except Raised (Dict (Key ω) RouteRule × Dict Text Text) := do
  let text ← disk.readText path
  match ← lib.safeLoad text with
  | .mapping document =>
    if document.any fun e => !([.str "upstreams", .str "rules"] : List (Key ω)).contains e.1 then
      throw .valueError
    match getSection document "upstreams" with
    | .mapping rawUpstreams =>
      let upstreams ← addUpstreams env rawUpstreams env.settings.upstreamServices
      let parsed ← parseRules lib (getSection document "rules")
      pure (update builtinRules parsed, upstreams)
    | _ => throw .valueError
  | _ => throw .valueError

/-- `except (yaml.YAMLError, ValueError, TypeError)`. -/
def handle : Raised → Failure
  | .yamlError | .valueError | .typeError =>
    .invalid "Invalid gateway.yaml; active configuration retained"
  | .other => .escaped .other

/-- The path to load, as the settings or the disk have it. -/
def choosePath (env : Environment) (disk : Disk) : Except Failure (Option Text) :=
  match env.gatewayConfigFile with
  | some (c :: path) => .ok (some (c :: path))
  | _ => disk.findFile.mapError .escaped

/-- `load_route_rules`: what it returns or raises, and what is active then. -/
def loadRouteRules (lib : Libraries ω) (env : Environment) (disk : Disk) (s : Active ω) :
    Except Failure (Option Text) × Active ω :=
  match choosePath env disk with
  | .error e => (.error e, s)
  | .ok path =>
    let read : Except Failure (Dict (Key ω) RouteRule × Dict Text Text) := match path with
      | none => .ok (builtinRules, env.settings.upstreamServices)
      | some path => (readFile lib env disk path).mapError handle
    match read with
    | .error e => (.error e, s)
    | .ok (rules, upstreams) =>
      let s := { s with routeRules := Dict.empty }
      let s := { s with routeRules := update s.routeRules rules }
      let s := { s with upstreamServices := upstreams }
      let s := { s with loadedYamlPath := path }
      (.ok path, s)

/-- What is active before the first call. -/
def Environment.active (env : Environment) : Active ω :=
  ⟨builtinRules, env.settings.upstreamServices, none⟩

/-- What is active after calls that find these disks. -/
def reloads (lib : Libraries ω) (env : Environment) (disks : List Disk) : Active ω :=
  disks.foldl (fun s disk => (loadRouteRules lib env disk s).2) env.active

end Load

/-! ## What a file contributes -/

section Sections

variable [DecidableEq ω] {lib : Libraries ω} {env : Environment} {disk : Disk}

/-- The upstreams and the rules that come from the file at `path`, if there is one. -/
inductive Sections (lib : Libraries ω) (disk : Disk) :
    Option Text → List (Text × Text) → List (Key ω × RouteRule) → Prop where
  | builtin : Sections lib disk none [] []
  | file {path text : Text} {document raw : List (Key ω × Yaml ω)}
      {upstreams : List (Text × Text)} {rules : List (Key ω × RouteRule)}
      (hread : disk.readText path = .ok text)
      (hload : lib.safeLoad text = .ok (.mapping document))
      (hupstreams : getSection document "upstreams" =
        .mapping (upstreams.map fun e => (.str e.1, .str e.2)))
      (hraw : getSection document "rules" = .mapping raw)
      (hrules : List.Forall₂ (fun e rule => rule.1 = e.1 ∧ lib.modelValidate e.2 = .ok rule.2)
        raw rules) :
      Sections lib disk (some path) upstreams rules

omit [DecidableEq ω] in
/-- The loop ends only if every item is a name with a base that is accepted. -/
theorem addUpstreams_ok {items : List (Key ω × Yaml ω)} {upstreams result : Dict Text Text}
    (h : addUpstreams env items upstreams = .ok result) :
    ∃ fromFile : List (Text × Text), items = fromFile.map (fun e => (.str e.1, .str e.2)) ∧
      result = fromFile.foldl (fun d e => d.set e.1 e.2) upstreams ∧
      ∀ e ∈ fromFile, validateUpstreamUrl env.config e.2 = true := by
  induction items, upstreams using addUpstreams.induct env with
  | case1 upstreams =>
    rw [addUpstreams] at h
    exact ⟨[], rfl, (Except.ok.inj h).symm, by simp⟩
  | case2 name base items upstreams hbase ih =>
    rw [addUpstreams, if_pos hbase] at h
    obtain ⟨fromFile, hitems, hresult, hall⟩ := ih h
    refine ⟨(name, base) :: fromFile, by rw [hitems]; rfl, hresult, ?_⟩
    intro e he
    rcases List.mem_cons.mp he with rfl | he
    · exact hbase
    · exact hall e he
  | case3 name base items upstreams hbase =>
    rw [addUpstreams, if_neg hbase] at h
    cases h
  | case4 item items upstreams hne =>
    rw [addUpstreams] at h
    · cases h
    · exact hne

theorem bind_ok {α β ε : Type} {x : Except ε α} {f : α → Except ε β} {b : β}
    (h : (x >>= f) = .ok b) : ∃ a, x = .ok a ∧ f a = .ok b := by
  cases x with
  | error e => cases h
  | ok a => exact ⟨a, rfl, h⟩

theorem mapM_ok {α β ε : Type} {f : α → Except ε β} {xs : List α} {ys : List β}
    (h : xs.mapM f = .ok ys) : List.Forall₂ (fun x y => f x = .ok y) xs ys := by
  induction xs generalizing ys with
  | nil =>
    cases h
    exact .nil
  | cons x xs ih =>
    rw [List.mapM_cons] at h
    obtain ⟨y, hy, h⟩ := bind_ok h
    obtain ⟨ys', hys, h⟩ := bind_ok h
    cases h
    exact .cons hy (ih hys)

theorem parseRules_ok {raw : Yaml ω} {parsed : Dict (Key ω) RouteRule}
    (h : parseRules lib raw = .ok parsed) :
    ∃ items rules, raw = .mapping items ∧ parsed = Dict.ofPairs rules ∧
      List.Forall₂ (fun e rule => rule.1 = e.1 ∧ lib.modelValidate e.2 = .ok rule.2)
        items rules := by
  cases raw with
  | str t => cases h
  | sequence items => cases h
  | other v => cases h
  | mapping items =>
    obtain ⟨rules, hrules, h⟩ := bind_ok h
    refine ⟨items, rules, rfl, (Except.ok.inj h).symm, ?_⟩
    refine (mapM_ok hrules).imp fun e rule hrule => ?_
    obtain ⟨validated, hvalid, hpair⟩ := bind_ok hrule
    cases hpair
    exact ⟨rfl, hvalid⟩

/-- What the file contributes is laid over the built-in rules and the upstreams of the
environment. -/
theorem readFile_ok {path : Text} {result : Dict (Key ω) RouteRule × Dict Text Text}
    (h : readFile lib env disk path = .ok result) :
    ∃ upstreams rules, Sections lib disk (some path) upstreams rules ∧
      result.1 = update builtinRules (Dict.ofPairs rules) ∧
      result.2 = upstreams.foldl (fun d e => d.set e.1 e.2) env.settings.upstreamServices ∧
      ∀ e ∈ upstreams, validateUpstreamUrl env.config e.2 = true := by
  obtain ⟨text, hread, h⟩ := bind_ok h
  obtain ⟨value, hload, h⟩ := bind_ok h
  cases value with
  | str t => cases h
  | sequence items => cases h
  | other v => cases h
  | mapping document =>
    dsimp only at h
    split at h
    · cases h
    · split at h
      next rawUpstreams hsection =>
        obtain ⟨upstreams, hupstreams, h⟩ := bind_ok h
        obtain ⟨parsed, hparsed, h⟩ := bind_ok h
        cases h
        obtain ⟨fromFile, rfl, hresult, hall⟩ := addUpstreams_ok hupstreams
        obtain ⟨raw, rules, hraw, rfl, hrules⟩ := parseRules_ok hparsed
        exact ⟨fromFile, rules, .file hread hload hsection hraw hrules, rfl, hresult, hall⟩
      next => cases h

end Sections

/-! ## Reloading -/

section Reload

variable [DecidableEq ω] {lib : Libraries ω} {env : Environment} {disk : Disk} {s : Active ω}

/-- `s` is what the file at `path` contributes, laid over the built-in rules and the
upstreams of the environment. -/
def Loaded (lib : Libraries ω) (env : Environment) (disk : Disk) (path : Option Text)
    (s : Active ω) : Prop :=
  ∃ upstreams rules, Sections lib disk path upstreams rules ∧
    s.routeRules = update builtinRules (Dict.ofPairs rules) ∧
    s.upstreamServices =
      upstreams.foldl (fun d e => d.set e.1 e.2) env.settings.upstreamServices ∧
    s.loadedYamlPath = path ∧
    ∀ e ∈ upstreams, validateUpstreamUrl env.config e.2 = true

/-- Clearing the rules and filling them again leaves those that are filled in. -/
theorem update_empty {κ α : Type} [DecidableEq κ] (d : Dict κ α) : update Dict.empty d = d :=
  Dict.ofPairs_items d

/-- A call raises and writes nothing, or all three values are new. -/
theorem loadRouteRules_cases (lib : Libraries ω) (env : Environment) (disk : Disk) :
    (∃ e, ∀ s, loadRouteRules lib env disk s = (.error e, s)) ∨
    ∃ path after, choosePath env disk = .ok path ∧ Loaded lib env disk path after ∧
      ∀ s, loadRouteRules lib env disk s = (.ok path, after) := by
  cases hpath : choosePath env disk with
  | error e => exact .inl ⟨e, fun s => by rw [loadRouteRules, hpath]⟩
  | ok path =>
    cases path with
    | none =>
      refine .inr ⟨none, ⟨builtinRules, env.settings.upstreamServices, none⟩, rfl, ?_, ?_⟩
      · exact ⟨[], [], .builtin, rfl, rfl, rfl, by simp⟩
      · intro s
        rw [loadRouteRules, hpath]
        simp only [update_empty]
    | some path =>
      cases hread : readFile lib env disk path with
      | error e =>
        refine .inl ⟨handle e, fun s => ?_⟩
        rw [loadRouteRules, hpath]
        simp only [hread, Except.mapError]
      | ok result =>
        obtain ⟨upstreams, rules, hsections, hrules, hupstreams, hall⟩ := readFile_ok hread
        refine .inr ⟨some path, ⟨result.1, result.2, some path⟩, rfl, ?_, ?_⟩
        · exact ⟨upstreams, rules, hsections, hrules, hupstreams, rfl, hall⟩
        · intro s
          rw [loadRouteRules, hpath]
          simp only [hread, Except.mapError, update_empty]

theorem Loaded.hasDefault {path : Option Text} (h : Loaded lib env disk path s) :
    (s.routeRules.get? (.str "_default")).isSome := by
  obtain ⟨upstreams, rules, -, hrules, -⟩ := h
  have hbuiltin : builtinRules.get? (.str "_default" : Key ω) = some BUILTIN_RULES.default := rfl
  rw [hrules, update, Dict.get?_foldl_set, hbuiltin]
  cases (Dict.values (Key.str "_default") (Dict.ofPairs rules).items).getLast? <;> rfl

/-- After any calls of `load_route_rules`, with any file or none at each, the next call
raises and leaves the rules, the upstreams and the path as they are, or it replaces all
three by values that do not depend on what was active: those of the file, laid over the
built-in rules and the upstreams of the environment, with a `_default` rule and with
accepted bases. -/
theorem load_route_rules_atomic (lib : Libraries ω) (env : Environment) (history : List Disk)
    (disk : Disk) :
    let before := reloads lib env history
    match loadRouteRules lib env disk before with
    | (.error _, after) => after = before
    | (.ok path, after) =>
      choosePath env disk = .ok path ∧ Loaded lib env disk path after ∧
      (after.routeRules.get? (.str "_default")).isSome ∧
      ∀ s, loadRouteRules lib env disk s = (.ok path, after) := by
  rcases loadRouteRules_cases lib env disk with ⟨e, h⟩ | ⟨path, after, hpath, hloaded, h⟩
  · dsimp only
    rw [h]
  · dsimp only
    rw [h]
    exact ⟨hpath, hloaded, hloaded.hasDefault, h⟩

end Reload

/-! ## The configuration that is served -/

/-- Every base of the configuration has passed `validate_upstream_url`. -/
def Accepted (cfg : Config) : Prop :=
  ∀ e ∈ cfg.settings.upstreamServices.items, validateUpstreamUrl cfg e.2 = true

/-- The rules that a service name can find. -/
def Active.rules (s : Active ω) : Dict Text RouteRule :=
  Dict.ofPairs (s.routeRules.items.filterMap fun e => match e.1 with
    | .str name => some (name, e.2)
    | .other _ => none)

/-- What requests and workers read, once there is a `_default` rule. -/
def Active.config (env : Environment) (s : Active ω) (h : (s.rules.get? "_default").isSome) :
    Config where
  settings := { env.settings with upstreamServices := s.upstreamServices }
  rules := ⟨s.rules, (s.rules.get? "_default").get h, by simp⟩
  netlocOk := env.netlocOk
  recursionLimit := env.recursionLimit

section Served

variable [DecidableEq ω] {lib : Libraries ω} {env : Environment} {disk : Disk} {s : Active ω}

theorem rules_hasDefault (h : (s.routeRules.get? (.str "_default")).isSome) :
    (s.rules.get? "_default").isSome := by
  obtain ⟨rule, hrule⟩ := Option.isSome_iff_exists.mp h
  have hmem := Dict.mem_items_iff.mpr hrule
  rw [Active.rules, Dict.get?_ofPairs]
  have hvalue : rule ∈ Dict.values ("_default" : Text) (s.routeRules.items.filterMap fun e =>
      match e.1 with
      | .str name => some (name, e.2)
      | .other _ => none) := by
    refine List.mem_map.mpr ⟨("_default", rule), List.mem_filter.mpr ⟨?_, by simp⟩, rfl⟩
    exact List.mem_filterMap.mpr ⟨_, hmem, rfl⟩
  rw [List.getLast?_eq_some_getLast (List.ne_nil_of_mem hvalue)]
  rfl

theorem Loaded.accepted {path : Option Text} (h : Loaded lib env disk path s)
    (henv : Accepted env.config) : ∀ e ∈ s.upstreamServices.items,
      validateUpstreamUrl env.config e.2 = true := by
  obtain ⟨upstreams, rules, -, -, hupstreams, -, hall⟩ := h
  intro ⟨name, base⟩ he
  have hget := Dict.mem_items_iff.mp he
  rw [hupstreams, Dict.get?_foldl_set] at hget
  cases hlast : (Dict.values name upstreams).getLast? with
  | none =>
    rw [hlast, Option.none_or] at hget
    exact henv _ (Dict.mem_items_iff.mpr hget)
  | some value =>
    rw [hlast, Option.some_or] at hget
    cases hget
    obtain ⟨e, hmem, rfl⟩ := List.mem_map.mp (List.mem_of_getLast? hlast)
    exact hall e (List.mem_of_mem_filter hmem)

/-- What is active is what was active at first, or was loaded from one of the disks. -/
theorem reloads_cases (lib : Libraries ω) (env : Environment) (history : List Disk) :
    reloads lib env history = env.active ∨
      ∃ disk ∈ history, ∃ path, Loaded lib env disk path (reloads lib env history) := by
  induction history using List.reverseRecOn with
  | nil => exact .inl rfl
  | append_singleton history disk ih =>
    have hlast : reloads lib env (history ++ [disk]) =
        (loadRouteRules lib env disk (reloads lib env history)).2 := by
      rw [reloads, List.foldl_append]
      rfl
    rw [hlast]
    rcases loadRouteRules_cases lib env disk with ⟨e, h⟩ | ⟨path, after, -, hloaded, h⟩
    · rw [h]
      refine ih.imp_right fun ⟨d, hd, path, hloaded⟩ => ?_
      exact ⟨d, List.mem_append_left _ hd, path, hloaded⟩
    · rw [h]
      exact .inr ⟨disk, by simp, path, hloaded⟩

/-- If the settings of the environment are accepted, then whatever is reloaded makes a
configuration, and one whose upstreams are accepted. -/
theorem reloads_accepted (lib : Libraries ω) (henv : Accepted env.config) (history : List Disk) :
    ∃ h, Accepted ((reloads lib env history).config env h) := by
  rcases reloads_cases lib env history with hactive | ⟨disk, -, path, hloaded⟩
  · have hdefault : (env.active.routeRules.get? (.str "_default" : Key ω)).isSome := rfl
    rw [hactive]
    exact ⟨rules_hasDefault hdefault, henv⟩
  · exact ⟨rules_hasDefault hloaded.hasDefault, hloaded.accepted henv⟩

end Served

end ConfigFile
end AdaptiveGateway
