import DdgServer.Log.Codec

/-!
# The entries of a definition's text

What the decoders of `ddg/log.h` make of a map, by its keys.

* `foldl_setField_eq`, `foldlM_setField_eq`: with distinct keys, the loops read each key by a lookup.
* `castToDefine_reordered`: so the order of the entries does not matter, and the appenders have what
  they give, or else what their logger gives.
* `formatter_blanks_exact`: a formatter that is no pattern is not blanked but makes the decoder and
  the encoder throw.
-/

namespace Ddg

namespace Key

theorem name_ne_nil : name ≠ [] := by decide
theorem level_ne_nil : level ≠ [] := by decide
theorem formatter_ne_nil : formatter ≠ [] := by decide
theorem file_ne_nil : file ≠ [] := by decide
theorem type_ne_nil : type ≠ [] := by decide
theorem appenders_ne_nil : appenders ≠ [] := by decide

end Key

open Yaml (Distinct)

variable {y : Yaml.Codec}

/-! ## Lookups in place of the loops -/

/-- The loop over the entries of an appender's map. -/
theorem foldl_setField_eq {es : List (Yaml × Yaml)} (hd : Distinct es) (d : LogAppenderDefine) :
    es.foldl LogAppenderDefine.setField d =
      { type := ((Yaml.map es).get Key.type).elim d.type fun v => AppenderType.fromString v.text
        level := ((Yaml.map es).get Key.level).elim d.level fun v => LogLevel.fromString v.text
        formatter := ((Yaml.map es).get Key.formatter).elim d.formatter Yaml.text
        file := ((Yaml.map es).get Key.file).elim d.file Yaml.text } := by
  induction es generalizing d with
  | nil => rfl
  | cons kv es ih =>
    rw [List.foldl_cons, ih hd.tail]
    simp only [Yaml.get_cons Key.type_ne_nil, Yaml.get_cons Key.level_ne_nil,
      Yaml.get_cons Key.formatter_ne_nil, Yaml.get_cons Key.file_ne_nil]
    unfold LogAppenderDefine.setField
    by_cases ht : kv.1.text = Key.type
    · simp [ht, hd.get_tail Key.type_ne_nil ht, Key.level_ne_type.symm, Key.file_ne_type.symm,
        Key.formatter_ne_type.symm]
    by_cases hl : kv.1.text = Key.level
    · simp [hl, hd.get_tail Key.level_ne_nil hl, Key.file_ne_level.symm, Key.formatter_ne_level.symm]
    by_cases hp : kv.1.text = Key.file
    · simp [hp, hd.get_tail Key.file_ne_nil hp, Key.formatter_ne_file.symm]
    by_cases hf : kv.1.text = Key.formatter
    · simp [hf, hd.get_tail Key.formatter_ne_nil hf]
    simp [ht, hl, hp, hf]

/-- What a value makes of the name; `none`: it throws. -/
def LogDefine.readName (v : Yaml) : Option Text := if v.text = [] then none else some v.text

def LogDefine.readFormatter (v : Yaml) : Option Text :=
  match LogFormatter.checkValid v.text with
  | .error _ => none
  | .ok false => some []
  | .ok true => some v.text

def LogDefine.readAppenders (y : Yaml.Codec) (v : Yaml) : Option (List LogAppenderDefine) :=
  (y.starTexts v).mapM (castToAppenderDefine y)

/-- What a map makes of a definition, by lookups. -/
def LogDefine.readMap (y : Yaml.Codec) (kvs : List (Yaml × Yaml)) (d : LogDefine) :
    Option LogDefine := do
  let name ← ((Yaml.map kvs).get Key.name).elim (some d.name) LogDefine.readName
  let formatter ← ((Yaml.map kvs).get Key.formatter).elim (some d.formatter) LogDefine.readFormatter
  let appenders ← ((Yaml.map kvs).get Key.appenders).elim (some []) (LogDefine.readAppenders y)
  return { name, formatter, appenders := d.appenders ++ appenders
           level := ((Yaml.map kvs).get Key.level).elim d.level fun v =>
             LogLevel.fromString v.text }

/-- The loop over the entries of a definition's map. -/
theorem foldlM_setField_eq {node : Yaml} {kvs : List (Yaml × Yaml)} (hd : Distinct kvs)
    (hnode : ∀ v, (.scalar Key.appenders, v) ∈ kvs → node.get Key.appenders = some v)
    (d : LogDefine) : kvs.foldlM (LogDefine.setField y node) d = LogDefine.readMap y kvs d := by
  induction kvs generalizing d with
  | nil => simp [LogDefine.readMap, Yaml.get]
  | cons kv kvs ih =>
    have ih := ih hd.tail fun v hv => hnode v (List.mem_cons_of_mem _ hv)
    rw [List.foldlM_cons]
    simp only [ih]
    unfold LogDefine.readMap
    simp only [Yaml.get_cons Key.name_ne_nil, Yaml.get_cons Key.level_ne_nil,
      Yaml.get_cons Key.formatter_ne_nil, Yaml.get_cons Key.appenders_ne_nil]
    unfold LogDefine.setField
    by_cases hn : kv.1.text = Key.name
    · have htail := hd.get_tail Key.name_ne_nil hn
      by_cases he : kv.2.text = []
      · simp [hn, he, LogDefine.readName]
      · simp [hn, he, LogDefine.readName, htail, Key.level_ne_name.symm, Key.formatter_ne_name.symm,
          Key.appenders_ne_name.symm]
    by_cases hl : kv.1.text = Key.level
    · simp [hl, hd.get_tail Key.level_ne_nil hl, Key.formatter_ne_level.symm,
        Key.appenders_ne_level.symm]
    by_cases hf : kv.1.text = Key.formatter
    · have htail := hd.get_tail Key.formatter_ne_nil hf
      simp only [hf, Key.formatter_ne_name, if_false, Key.formatter_ne_level, if_true, htail,
        Key.appenders_ne_formatter.symm, Option.elim_some, Option.elim_none,
        LogDefine.readFormatter]
      rcases LogFormatter.checkValid kv.2.text with e | _ | _ <;> simp
    by_cases ha : kv.1.text = Key.appenders
    · have htail := hd.get_tail Key.appenders_ne_nil ha
      have hget : node.get Key.appenders = some kv.2 := by
        refine hnode _ ?_
        rw [← (Yaml.text_eq_iff Key.appenders_ne_nil).mp ha]
        exact List.mem_cons_self
      simp only [ha, Key.appenders_ne_name, if_false, Key.appenders_ne_level,
        Key.appenders_ne_formatter, if_true, htail, hget, Option.getD_some, Option.elim_some,
        Option.elim_none, LogDefine.readAppenders]
      cases (y.starTexts kv.2).mapM (castToAppenderDefine y) <;> simp
    simp [hn, hl, hf, ha]

/-- A definition's map with distinct keys is decoded by lookups. -/
theorem castToDefine_map {t : Text} {kvs : List (Yaml × Yaml)} (hl : y.load t = some (.map kvs))
    (hd : Distinct kvs) : castToDefine y t = (LogDefine.readMap y kvs {}).map fun d =>
      { d with appenders := d.appenders.map (LogAppenderDefine.inherit d) } := by
  unfold castToDefine
  rw [hl]
  simp only [Option.bind_eq_bind, Option.bind_some, Yaml.entries]
  rw [foldlM_setField_eq hd fun v hv => Yaml.get_of_mem hd hv, Option.map_eq_bind]
  rfl

/-! ## The order of the entries -/

/-- The appender that a map gives. -/
def appenderOf (n : Yaml) : LogAppenderDefine where
  type := AppenderType.fromString (n.textAt Key.type)
  level := LogLevel.fromString (n.textAt Key.level)
  formatter := n.textAt Key.formatter
  file := n.textAt Key.file

/-- A map with distinct keys, as the text of an appender is. -/
def IsAppender (n : Yaml) : Prop := ∃ es, n = .map es ∧ Distinct es

/-- The map of a definition: its keys are distinct, and so are those of each appender in it. -/
structure DefineMap (kvs : List (Yaml × Yaml)) : Prop where
  distinct : Distinct kvs
  appenders : ∀ v, (.scalar Key.appenders, v) ∈ kvs → ∃ xs, v = .seq xs ∧ ∀ n ∈ xs, IsAppender n

/-- The same entries in another order. -/
def SameMap (n n' : Yaml) : Prop := ∃ es es', n = .map es ∧ n' = .map es' ∧ es.Perm es'

/-- The same entry, up to the order of the entries of appenders. -/
def SameEntry (kv kv' : Yaml × Yaml) : Prop := kv.1 = kv'.1 ∧ (kv.2 = kv'.2 ∨
  kv.1 = .scalar Key.appenders ∧
    ∃ xs xs', kv.2 = .seq xs ∧ kv'.2 = .seq xs' ∧ List.Forall₂ SameMap xs xs')

/-- The same entries in another order, also within the appenders. -/
def Reordered (kvs kvs' : List (Yaml × Yaml)) : Prop :=
  ∃ mid, List.Forall₂ SameEntry kvs mid ∧ mid.Perm kvs'

/-- The maps of the appenders of a definition. -/
def appenderMaps (kvs : List (Yaml × Yaml)) : List Yaml :=
  match (Yaml.map kvs).get Key.appenders with
  | some (.seq xs) => xs
  | _ => []

/-- The appender `a` has the formatter and the level that its map `n` gives, and otherwise those of
its logger. -/
structure Inherits (d : LogDefine) (n : Yaml) (a : LogAppenderDefine) : Prop where
  formatter : a.formatter =
    if n.textAt Key.formatter ≠ [] then n.textAt Key.formatter else d.formatter
  level : a.level = if LogLevel.fromString (n.textAt Key.level) ≠ .unknow then
    LogLevel.fromString (n.textAt Key.level) else d.level

theorem appenderFromString_nil : AppenderType.fromString [] = .unknow := by decide

theorem levelFromString_nil : LogLevel.fromString [] = .unknow := by decide

theorem foldl_setField_map {es : List (Yaml × Yaml)} (hd : Distinct es) :
    es.foldl LogAppenderDefine.setField {} = appenderOf (.map es) := by
  rw [foldl_setField_eq hd, appenderOf]
  unfold Yaml.textAt
  congr 1
  · cases (Yaml.map es).get Key.type with
    | none => exact appenderFromString_nil.symm
    | some v => rfl
  · cases (Yaml.map es).get Key.level with
    | none => exact levelFromString_nil.symm
    | some v => rfl

/-- The decoder of an appender on the text of its map. -/
theorem castToAppenderDefine_emit (h : y.LoadsEmitted) {n : Yaml} (hn : IsAppender n) :
    castToAppenderDefine y (y.emit n) = some (appenderOf n) := by
  obtain ⟨es, rfl, hd⟩ := hn
  rw [← foldl_setField_map hd]
  simp [castToAppenderDefine, h _, Yaml.entries]

theorem readAppenders_seq (h : y.LoadsEmitted) {xs : List Yaml} (hx : ∀ n ∈ xs, IsAppender n) :
    LogDefine.readAppenders y (.seq xs) = some (xs.map appenderOf) := by
  unfold LogDefine.readAppenders Yaml.Codec.starTexts
  simp only
  induction xs with
  | nil => rfl
  | cons n xs ih =>
    have htail := ih fun m hm => hx m (List.mem_cons_of_mem _ hm)
    rw [List.map_cons, List.mapM_cons, castToAppenderDefine_emit h (hx n List.mem_cons_self), htail]
    rfl

theorem appenderOf_same {n n' : Yaml} (hn : IsAppender n) (h : SameMap n n') :
    IsAppender n' ∧ appenderOf n = appenderOf n' := by
  obtain ⟨es, rfl, hd⟩ := hn
  obtain ⟨es₁, es', he, rfl, hp⟩ := h
  cases he
  refine ⟨⟨es', rfl, hd.perm hp⟩, ?_⟩
  simp only [appenderOf, Yaml.textAt, Yaml.get_perm hd hp]

theorem readAppenders_same (h : y.LoadsEmitted) {xs xs' : List Yaml}
    (hx : ∀ n ∈ xs, IsAppender n) (hs : List.Forall₂ SameMap xs xs') :
    LogDefine.readAppenders y (.seq xs) = LogDefine.readAppenders y (.seq xs') := by
  have hsame : (∀ n ∈ xs', IsAppender n) ∧ xs.map appenderOf = xs'.map appenderOf := by
    induction hs with
    | nil => exact ⟨fun n hn => absurd hn List.not_mem_nil, rfl⟩
    | cons hn _ ih =>
      obtain ⟨ha, he⟩ := appenderOf_same (hx _ List.mem_cons_self) hn
      obtain ⟨hall, hmap⟩ := ih fun m hm => hx m (List.mem_cons_of_mem _ hm)
      exact ⟨List.forall_mem_cons.mpr ⟨ha, hall⟩, by rw [List.map_cons, List.map_cons, he, hmap]⟩
  rw [readAppenders_seq h hx, readAppenders_seq h hsame.1, hsame.2]

/-- Lookups of the same key. -/
theorem get_same {kvs kvs' : List (Yaml × Yaml)} (h : List.Forall₂ SameEntry kvs kvs')
    (key : Text) : ((Yaml.map kvs).get key = none ∧ (Yaml.map kvs').get key = none) ∨
      ∃ v v', (Yaml.map kvs).get key = some v ∧ (Yaml.map kvs').get key = some v' ∧
        SameEntry (.scalar key, v) (.scalar key, v') := by
  induction h with
  | nil => exact .inl ⟨rfl, rfl⟩
  | @cons kv kv' _ _ hkv _ ih =>
    obtain ⟨k, v⟩ := kv
    obtain ⟨k', v'⟩ := kv'
    obtain rfl : k = k' := hkv.1
    by_cases hk : k = .scalar key
    · subst hk
      exact .inr ⟨v, v', Yaml.get_cons_self _ _ _, Yaml.get_cons_self _ _ _, hkv⟩
    · rwa [Yaml.get_cons_ne hk, Yaml.get_cons_ne hk]

theorem get_same_of_ne {kvs kvs' : List (Yaml × Yaml)} (h : List.Forall₂ SameEntry kvs kvs')
    {key : Text} (hkey : key ≠ Key.appenders) :
    (Yaml.map kvs).get key = (Yaml.map kvs').get key := by
  rcases get_same h key with ⟨hn, hn'⟩ | ⟨v, v', hv, hv', -, he | ⟨hk, -⟩⟩
  · rw [hn, hn']
  · rw [hv, hv']
    exact congrArg some he
  · exact absurd (Yaml.scalar.inj hk) hkey

variable {t t' : Text} {kvs kvs' : List (Yaml × Yaml)}

theorem DefineMap.readMap_same (hm : DefineMap kvs) (h : y.LoadsEmitted)
    (hs : List.Forall₂ SameEntry kvs kvs') (d : LogDefine) :
    LogDefine.readMap y kvs d = LogDefine.readMap y kvs' d := by
  have happ : ((Yaml.map kvs).get Key.appenders).elim (some []) (LogDefine.readAppenders y) =
      ((Yaml.map kvs').get Key.appenders).elim (some []) (LogDefine.readAppenders y) := by
    rcases get_same hs Key.appenders with ⟨hn, hn'⟩ | ⟨v, v', hv, hv', -, hsame⟩
    · rw [hn, hn']
    · rw [hv, hv']
      rcases hsame with rfl | ⟨-, xs, xs', rfl, rfl, hxs⟩
      · rfl
      · obtain ⟨_, he, hx⟩ := hm.appenders _ (Yaml.mem_of_get hv)
        cases he
        exact readAppenders_same h hx hxs
  unfold LogDefine.readMap
  rw [get_same_of_ne hs Key.appenders_ne_name.symm, get_same_of_ne hs Key.appenders_ne_level.symm,
    get_same_of_ne hs Key.appenders_ne_formatter.symm, happ]

theorem readMap_perm (hd : Distinct kvs) (hp : kvs.Perm kvs') (d : LogDefine) :
    LogDefine.readMap y kvs d = LogDefine.readMap y kvs' d := by
  unfold LogDefine.readMap
  simp only [Yaml.get_perm hd hp]

theorem distinct_same (hd : Distinct kvs) (h : List.Forall₂ SameEntry kvs kvs') :
    Distinct kvs' := by
  have hkeys : kvs.map Prod.fst = kvs'.map Prod.fst := by
    rw [← List.forall₂_eq_eq_eq, List.forall₂_map_left_iff, List.forall₂_map_right_iff]
    exact h.imp fun _ _ hkv => hkv.1
  unfold Yaml.Distinct at *
  rwa [← hkeys]

/-- An appender has what its map gives, or else what its logger gives. -/
theorem inherits_inherit (d : LogDefine) (n : Yaml) (l : List LogAppenderDefine) :
    Inherits { d with appenders := l } n ((appenderOf n).inherit d) := by
  constructor
  · by_cases hn : n.textAt Key.formatter = []
    · by_cases hf : d.formatter = [] <;> simp [LogAppenderDefine.inherit, appenderOf, hn, hf]
    · simp [LogAppenderDefine.inherit, appenderOf, hn]
  · by_cases hn : LogLevel.fromString (n.textAt Key.level) = .unknow
    · by_cases hl : d.level = .unknow <;> simp [LogAppenderDefine.inherit, appenderOf, hn, hl]
    · simp [LogAppenderDefine.inherit, appenderOf, hn]

/-- The appenders that the loop makes are those of the maps. -/
theorem DefineMap.readMap_appenders (hm : DefineMap kvs) (h : y.LoadsEmitted) {d : LogDefine}
    (hr : LogDefine.readMap y kvs {} = some d) : d.appenders = (appenderMaps kvs).map appenderOf := by
  have hread : ((Yaml.map kvs).get Key.appenders).elim (some []) (LogDefine.readAppenders y) =
      some ((appenderMaps kvs).map appenderOf) := by
    unfold appenderMaps
    cases hv : (Yaml.map kvs).get Key.appenders with
    | none => rfl
    | some v =>
      obtain ⟨xs, rfl, hx⟩ := hm.appenders v (Yaml.mem_of_get hv)
      exact readAppenders_seq h hx
  obtain ⟨name, -, hr⟩ := Option.bind_eq_some_iff.mp hr
  obtain ⟨formatter, -, hr⟩ := Option.bind_eq_some_iff.mp hr
  obtain ⟨l, hl, hr⟩ := Option.bind_eq_some_iff.mp hr
  cases hr
  rw [hread] at hl
  exact (Option.some.inj hl).symm

theorem DefineMap.inherits (hm : DefineMap kvs) (h : y.LoadsEmitted)
    (hl : y.load t = some (.map kvs)) {d : LogDefine} (hd : castToDefine y t = some d) :
    List.Forall₂ (Inherits d) (appenderMaps kvs) d.appenders := by
  rw [castToDefine_map hl hm.distinct] at hd
  obtain ⟨e, he, rfl⟩ := Option.map_eq_some_iff.mp hd
  rw [hm.readMap_appenders h he, List.map_map, List.forall₂_map_right_iff, List.forall₂_same]
  exact fun n _ => inherits_inherit e n _

/-- **The order of the entries does not matter**: the text of a map and that of any reordering of
it, also within its appenders, are decoded to the same definition or not at all; and each appender
has what it gives, or else what its logger gives. -/
theorem castToDefine_reordered (h : y.LoadsEmitted) (hl : y.load t = some (.map kvs))
    (hl' : y.load t' = some (.map kvs')) (hm : DefineMap kvs) (hr : Reordered kvs kvs') :
    castToDefine y t = castToDefine y t' ∧
      ∀ d, castToDefine y t = some d → List.Forall₂ (Inherits d) (appenderMaps kvs) d.appenders := by
  obtain ⟨mid, hs, hp⟩ := hr
  have hd : Distinct mid := distinct_same hm.distinct hs
  refine ⟨?_, fun d => hm.inherits h hl⟩
  rw [castToDefine_map hl hm.distinct, castToDefine_map hl' (hd.perm hp), hm.readMap_same h hs,
    readMap_perm hd hp]

/-! ## The entry of the formatter -/

/-- What `checkValid` allows: it returns `true` or throws. -/
theorem setField_formatter_eq {node : Yaml} {kv : Yaml × Yaml} (hk : kv.1.text = Key.formatter)
    (d : LogDefine) : LogDefine.setField y node d kv =
      if LogFormatter.Accepted kv.2.text then some { d with formatter := kv.2.text } else none := by
  unfold LogDefine.setField
  simp only [hk, Key.formatter_ne_name, if_false, Key.formatter_ne_level, if_true]
  by_cases ha : LogFormatter.Accepted kv.2.text
  · have hc : LogFormatter.checkValid kv.2.text = .ok true := ha
    rw [hc, if_pos ha]
  · rw [(LogFormatter.checkValid_cases _).resolve_left ha, if_neg ha]

/-- No other entry looks at the formatter. -/
theorem setField_other {node : Yaml} {kv : Yaml × Yaml} (hk : kv.1.text ≠ Key.formatter)
    (d : LogDefine) (f : Text) : LogDefine.setField y node { d with formatter := f } kv =
      (LogDefine.setField y node d kv).map fun e => { e with formatter := f } := by
  unfold LogDefine.setField
  by_cases hn : kv.1.text = Key.name
  · by_cases he : kv.2.text = [] <;> simp [hn, he]
  by_cases hl : kv.1.text = Key.level
  · simp [hl]
  by_cases ha : kv.1.text = Key.appenders
  · simp only [ha, Key.appenders_ne_name, if_false, Key.appenders_ne_level,
      Key.appenders_ne_formatter, if_true, Option.map_map]
    rfl
  simp [hn, hl, hk, ha]

theorem foldlM_setField_other {node : Yaml} {l : List (Yaml × Yaml)}
    (hl : ∀ kv ∈ l, kv.1.text ≠ Key.formatter) (d : LogDefine) (f : Text) :
    l.foldlM (LogDefine.setField y node) { d with formatter := f } =
      (l.foldlM (LogDefine.setField y node) d).map fun e => { e with formatter := f } := by
  induction l generalizing d with
  | nil => rfl
  | cons kv l ih =>
    rw [List.foldlM_cons, List.foldlM_cons, setField_other (hl kv List.mem_cons_self)]
    cases LogDefine.setField y node d kv with
    | none => rfl
    | some e => exact ih (fun x hx => hl x (List.mem_cons_of_mem _ hx)) e

theorem get_insert {key : Text} {kv : Yaml × Yaml} (hk : kv.1 ≠ .scalar key)
    (l r : List (Yaml × Yaml)) :
    (Yaml.map (l ++ kv :: r)).get key = (Yaml.map (l ++ r)).get key := by
  induction l with
  | nil => exact Yaml.get_cons_ne hk
  | cons x l ih =>
    rw [List.cons_append, List.cons_append]
    by_cases hx : x.1 = .scalar key
    · obtain ⟨k, v⟩ := x
      obtain rfl : k = .scalar key := hx
      rw [Yaml.get_cons_self, Yaml.get_cons_self]
    · rw [Yaml.get_cons_ne hx, Yaml.get_cons_ne hx, ih]

/-- The loop with an entry for the formatter, and without it. -/
theorem foldlM_setField_formatter_entry {l r : List (Yaml × Yaml)} (kv : Yaml × Yaml)
    (hk : kv.1.text = Key.formatter) (hr : ∀ x ∈ r, x.1.text ≠ Key.formatter) (d : LogDefine) :
    (l ++ kv :: r).foldlM (LogDefine.setField y (.map (l ++ kv :: r))) d =
      if LogFormatter.Accepted kv.2.text then
        ((l ++ r).foldlM (LogDefine.setField y (.map (l ++ r))) d).map fun e =>
          { e with formatter := kv.2.text }
      else none := by
  have hkey : kv.1 ≠ .scalar Key.appenders := by
    intro he
    rw [he] at hk
    exact Key.appenders_ne_formatter hk
  have hnode : LogDefine.setField y (.map (l ++ kv :: r)) =
      LogDefine.setField y (.map (l ++ r)) := by
    funext d x
    unfold LogDefine.setField
    by_cases ha : x.1.text = Key.appenders
    · simp only [ha, get_insert hkey]
    · simp only [ha, if_false]
  rw [hnode, List.foldlM_append, List.foldlM_append]
  simp only [List.foldlM_cons, setField_formatter_eq hk]
  by_cases ha : LogFormatter.Accepted kv.2.text
  · simp only [if_pos ha]
    cases l.foldlM (LogDefine.setField y (.map (l ++ r))) d with
    | none => rfl
    | some e => exact foldlM_setField_other hr e kv.2.text
  · simp only [if_neg ha]
    cases l.foldlM (LogDefine.setField y (.map (l ++ r))) d <;> rfl

/-- The encoder writes an empty formatter in place of one that is no pattern. -/
def WritesBlank (y : Yaml.Codec) (d : LogDefine) : Prop := ¬ LogFormatter.Accepted d.formatter →
  ∃ t n, castFromDefine y d = some t ∧ y.load t = some n ∧ n.get Key.formatter = some (.scalar [])

/-- The encoder throws on a formatter that is no pattern. -/
theorem castFromDefine_rejected {d : LogDefine} (h : ¬ LogFormatter.Accepted d.formatter) :
    castFromDefine y d = none := by
  have hne : d.formatter ≠ [] := by
    intro he
    rw [he] at h
    exact h (by decide)
  unfold castFromDefine LogDefine.formatterField
  rw [if_pos hne, (LogFormatter.checkValid_cases _).resolve_left h]
  rfl

theorem writesBlank_iff (d : LogDefine) : WritesBlank y d ↔ LogFormatter.Accepted d.formatter := by
  constructor
  · intro h
    by_contra ha
    obtain ⟨t, n, ht, -⟩ := h ha
    rw [castFromDefine_rejected ha] at ht
    cases ht
  · exact fun ha hn => absurd ha hn

section Entry

variable {l r : List (Yaml × Yaml)} {k v : Yaml} {d' : LogDefine}

/-- The decoder with the entry of a formatter, and without it. -/
theorem castToDefine_entry (hl : y.load t = some (.map (l ++ (k, v) :: r)))
    (hl' : y.load t' = some (.map (l ++ r))) (hk : k.text = Key.formatter)
    (hr : ∀ x ∈ l ++ r, x.1.text ≠ Key.formatter) (hd : castToDefine y t' = some d') :
    if LogFormatter.Accepted v.text then ∃ d, castToDefine y t = some d
    else castToDefine y t = none := by
  unfold castToDefine at hd ⊢
  rw [hl'] at hd
  rw [hl]
  simp only [Option.bind_eq_bind, Option.bind_some, Yaml.entries] at hd ⊢
  rw [foldlM_setField_formatter_entry (k, v) hk fun x hx => hr x (by simp [hx])]
  obtain ⟨e, he, -⟩ := Option.bind_eq_some_iff.mp hd
  split
  · rw [he]
    exact ⟨_, rfl⟩
  · rfl

/-- **A formatter that is no pattern** does not only blank itself. Where the text without the entry is
decoded, the text with it is decoded as it should be exactly if the formatter is a pattern; and so it
is with the encoder. -/
theorem formatter_blanks_exact (hl : y.load t = some (.map (l ++ (k, v) :: r)))
    (hl' : y.load t' = some (.map (l ++ r))) (hk : k.text = Key.formatter)
    (hr : ∀ x ∈ l ++ r, x.1.text ≠ Key.formatter) (hd : castToDefine y t' = some d') :
    ((∃ d, castToDefine y t = some d ∧
        (¬ LogFormatter.Accepted v.text → d = d' ∧ d.formatter = [])) ↔
      LogFormatter.Accepted v.text) ∧
    ∀ e, WritesBlank y e ↔ LogFormatter.Accepted e.formatter := by
  have hentry := castToDefine_entry hl hl' hk hr hd
  refine ⟨⟨?_, fun ha => ?_⟩, writesBlank_iff⟩
  · rintro ⟨d, hdec, -⟩
    by_contra ha
    rw [if_neg ha, hdec] at hentry
    cases hentry
  · rw [if_pos ha] at hentry
    obtain ⟨d, hdec⟩ := hentry
    exact ⟨d, hdec, fun hn => absurd ha hn⟩

end Entry

/-! ## Texts -/

/-- What `yaml-cpp` emits for the nodes of some definitions, in the place of their flow texts. -/
def entryStyles : List (Text × Text) :=
  [("\x7bname: db, level: WARN, appenders: ".toList ++
        "[\x7btype: FileLogAppender, file: a.log, \x7d, ], \x7d".toList,
      "name: db\nlevel: WARN\nappenders:\n  - type: FileLogAppender\n    file: a.log".toList),
    ("\x7bappenders: [\x7bfile: a.log, type: FileLogAppender, \x7d, ], ".toList ++
        "level: WARN, name: db, \x7d".toList,
      "appenders:\n  - file: a.log\n    type: FileLogAppender\nlevel: WARN\nname: db".toList),
    ("\x7btype: FileLogAppender, file: a.log, \x7d".toList,
      "type: FileLogAppender\nfile: a.log".toList),
    ("\x7bfile: a.log, type: FileLogAppender, \x7d".toList,
      "file: a.log\ntype: FileLogAppender".toList),
    ("\x7bname: db, formatter: \"%m\", \x7d".toList, "name: db\nformatter: \"%m\"".toList),
    ("\x7bname: db, formatter: \"%\", \x7d".toList, "name: db\nformatter: \"%\"".toList),
    ("\x7bname: db, \x7d".toList, "name: db".toList)]

theorem entryStyles_styles : Yaml.Flow.Styles entryStyles := by
  unfold entryStyles
  repeat rw [String.toList_ofList]
  decide

/-- The map of an appender to a file, without a level. -/
def fileEntries : List (Yaml × Yaml) :=
  [(.scalar Key.type, .scalar "FileLogAppender".toList),
    (.scalar Key.file, .scalar "a.log".toList)]

/-- The map of a definition with one appender. -/
def warnEntries (es : List (Yaml × Yaml)) : List (Yaml × Yaml) :=
  [(.scalar Key.name, .scalar "db".toList), (.scalar Key.level, .scalar "WARN".toList),
    (.scalar Key.appenders, .seq [.map es])]

theorem fileEntries_distinct : Distinct fileEntries := by
  simp [Yaml.Distinct, fileEntries, Key.file_ne_type.symm]

theorem warnEntries_map : DefineMap (warnEntries fileEntries) where
  distinct := by
    simp [Yaml.Distinct, warnEntries, Key.level_ne_name.symm, Key.appenders_ne_name.symm,
      Key.appenders_ne_level.symm]
  appenders v hv := by
    simp only [warnEntries, List.mem_cons, Prod.mk.injEq, Yaml.scalar.injEq, List.not_mem_nil,
      Key.appenders_ne_name, Key.appenders_ne_level, false_and, true_and, false_or, or_false] at hv
    refine ⟨_, hv, fun n hn => ⟨fileEntries, List.mem_singleton.mp hn, fileEntries_distinct⟩⟩

/-- The entries in the opposite order, also those of the appender, which has the level of its
logger. -/
theorem castToDefine_reordered_reverse :
    let d : LogDefine :=
      { name := "db".toList, level := .warn
        appenders := [{ type := .file, level := .warn, file := "a.log".toList }] }
    castToDefine (Yaml.Flow.restyle entryStyles)
      "name: db\nlevel: WARN\nappenders:\n  - type: FileLogAppender\n    file: a.log".toList =
      some d ∧
    castToDefine (Yaml.Flow.restyle entryStyles)
      "appenders:\n  - file: a.log\n    type: FileLogAppender\nlevel: WARN\nname: db".toList =
      some d := by
  intro d
  have h := Yaml.Flow.restyle_loadsEmitted entryStyles_styles
  have he : (Yaml.Flow.restyle entryStyles).emit (.map (warnEntries fileEntries)) =
      "name: db\nlevel: WARN\nappenders:\n  - type: FileLogAppender\n    file: a.log".toList := by
    unfold entryStyles warnEntries fileEntries Key.name Key.level Key.type Key.file Key.appenders
    repeat rw [String.toList_ofList]
    decide
  have he' : (Yaml.Flow.restyle entryStyles).emit
      (.map (warnEntries fileEntries.reverse).reverse) =
      "appenders:\n  - file: a.log\n    type: FileLogAppender\nlevel: WARN\nname: db".toList := by
    unfold entryStyles warnEntries fileEntries Key.name Key.level Key.type Key.file Key.appenders
    repeat rw [String.toList_ofList]
    decide
  have hr : Reordered (warnEntries fileEntries) (warnEntries fileEntries.reverse).reverse := by
    have hsame : SameMap (.map fileEntries) (.map fileEntries.reverse) :=
      ⟨_, _, rfl, rfl, (List.reverse_perm _).symm⟩
    exact ⟨warnEntries fileEntries.reverse, .cons ⟨rfl, .inl rfl⟩ (.cons ⟨rfl, .inl rfl⟩
      (.cons ⟨rfl, .inr ⟨rfl, _, _, rfl, rfl, .cons hsame .nil⟩⟩ .nil)),
      (List.reverse_perm _).symm⟩
  have hd : castToDefine (Yaml.Flow.restyle entryStyles)
      "name: db\nlevel: WARN\nappenders:\n  - type: FileLogAppender\n    file: a.log".toList =
      some d := by
    unfold entryStyles d
    repeat rw [String.toList_ofList]
    decide
  refine ⟨hd, ?_⟩
  rw [← hd, ← he, ← he']
  exact (castToDefine_reordered h (h _) (h _) warnEntries_map hr).1.symm

/-- The map of a definition with a formatter. -/
def dbDefine (formatter : Text) : List (Yaml × Yaml) :=
  [(.scalar Key.name, .scalar "db".toList)] ++ (.scalar Key.formatter, .scalar formatter) :: []

theorem load_db : (Yaml.Flow.restyle entryStyles).load "name: db".toList =
    some (.map ([(.scalar Key.name, .scalar "db".toList)] ++ [])) := by
  have he : (Yaml.Flow.restyle entryStyles).emit
      (.map ([(.scalar Key.name, .scalar "db".toList)] ++ [])) = "name: db".toList := by
    unfold entryStyles Key.name
    repeat rw [String.toList_ofList]
    decide
  rw [← he]
  exact Yaml.Flow.restyle_loadsEmitted entryStyles_styles _

theorem castToDefine_db : castToDefine (Yaml.Flow.restyle entryStyles) "name: db".toList =
    some { name := "db".toList } := by
  unfold entryStyles
  repeat rw [String.toList_ofList]
  decide

/-- With `"%m"` for the formatter. -/
theorem formatter_blanks_exact_message : ∃ d,
    castToDefine (Yaml.Flow.restyle entryStyles) "name: db\nformatter: \"%m\"".toList = some d := by
  have he : (Yaml.Flow.restyle entryStyles).emit (.map (dbDefine "%m".toList)) =
      "name: db\nformatter: \"%m\"".toList := by
    unfold entryStyles dbDefine Key.name Key.formatter
    repeat rw [String.toList_ofList]
    decide
  have hl := Yaml.Flow.restyle_loadsEmitted entryStyles_styles (.map (dbDefine "%m".toList))
  have hexact := formatter_blanks_exact hl load_db rfl
    (by simp [Yaml.text, Key.formatter_ne_name.symm]) castToDefine_db
  rw [← he]
  obtain ⟨d, hdec, -⟩ := hexact.1.mpr (by unfold Yaml.text; decide)
  exact ⟨d, hdec⟩

/-- `"%"` is no pattern. -/
theorem formatter_throws : (Yaml.Flow.restyle entryStyles).LoadsEmitted ∧
    (Yaml.Flow.restyle entryStyles).load "name: db\nformatter: \"%\"".toList =
      some (.map (dbDefine "%".toList)) ∧
    castToDefine (Yaml.Flow.restyle entryStyles) "name: db".toList =
      some { name := "db".toList } ∧
    castToDefine (Yaml.Flow.restyle entryStyles) "name: db\nformatter: \"%\"".toList = none ∧
    ¬ WritesBlank (Yaml.Flow.restyle entryStyles)
      { name := "db".toList, formatter := "%".toList } := by
  have h := Yaml.Flow.restyle_loadsEmitted entryStyles_styles
  refine ⟨h, ?_, castToDefine_db, ?_, fun hw => ?_⟩
  · have he : (Yaml.Flow.restyle entryStyles).emit (.map (dbDefine "%".toList)) =
        "name: db\nformatter: \"%\"".toList := by
      unfold entryStyles dbDefine Key.name Key.formatter
      repeat rw [String.toList_ofList]
      decide
    rw [← he]
    exact h _
  · unfold entryStyles
    repeat rw [String.toList_ofList]
    decide
  · obtain ⟨t, n, ht, -⟩ := hw (by decide)
    rw [castFromDefine_rejected (by decide)] at ht
    cases ht

end Ddg
