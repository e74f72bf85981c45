import Mathlib.Computability.Language

/-!
# The pattern matcher

`match`, `matchhere` and `matchstar` of `grep.c`. Strings are the bytes before the terminating zero.
A pattern stands for a language, and the matcher finds out whether a part of the text lies in it.
-/

namespace OsSessional.Userland

open scoped Computability

def dot : UInt8 := 46
def star : UInt8 := 42
def dollar : UInt8 := 36
def caret : UInt8 := 94

/-- `c=='.' || c==*text` -/
def accepts (c x : UInt8) : Bool := c == dot || c == x

/-- `here` is `matchhere` with the pattern after the star. -/
def matchstar (here : List UInt8 → Bool) (c : UInt8) : List UInt8 → Bool
  | [] => here []
  | x :: text => here (x :: text) || (accepts c x && matchstar here c text)

/-- `*text!='\0' && (re[0]=='.' || re[0]==*text)`, and `here` after it. -/
def matchone (here : List UInt8 → Bool) (c : UInt8) : List UInt8 → Bool
  | [] => false
  | x :: text => accepts c x && here text

/-- The empty pattern matches everywhere. -/
def matchhere : List UInt8 → List UInt8 → Bool
  | [], _ => true
  | c :: [], text => if c = dollar then text.isEmpty else matchone (fun _ => true) c text
  | c :: d :: re, text =>
    if d = star then matchstar (matchhere re) c text else matchone (matchhere (d :: re)) c text

/-- The loop of `match`. -/
def search (re : List UInt8) : List UInt8 → Bool
  | [] => matchhere re []
  | x :: text => matchhere re (x :: text) || search re text

def match_ (re text : List UInt8) : Bool :=
  if re.head? = some caret then matchhere re.tail text else search re text

section Language

/-- A letter of a pattern, once or any number of times. -/
inductive Item
  | one (c : UInt8)
  | many (c : UInt8)

/-- The letters of a pattern, and whether `$` ends it. -/
def parse : List UInt8 → List Item × Bool
  | [] => ([], false)
  | c :: [] => if c = dollar then ([], true) else ([.one c], false)
  | c :: d :: re =>
    if d = star then (.many c :: (parse re).1, (parse re).2)
    else (.one c :: (parse (d :: re)).1, (parse (d :: re)).2)

/-- The words of one letter that `c` accepts. -/
def letter (c : UInt8) : Language UInt8 := {w | ∃ x, w = [x] ∧ accepts c x = true}

def Item.language : Item → Language UInt8
  | .one c => letter c
  | .many c => (letter c)∗

/-- The words that letters in a row stand for. -/
def words (items : List Item) : Language UInt8 := (items.map Item.language).prod

variable {c d x : UInt8} {re text w : List UInt8} {items : List Item}

private theorem mem_letter_star : w ∈ (letter c)∗ ↔ ∀ x ∈ w, accepts c x = true := by
  rw [Language.mem_kstar]
  constructor
  · rintro ⟨L, rfl, hL⟩ x hx
    rcases List.mem_flatten.mp hx with ⟨y, hy, hxy⟩
    rcases hL y hy with ⟨z, rfl, hz⟩
    rw [List.mem_singleton.mp hxy]
    exact hz
  · intro h
    refine ⟨w.map fun x => [x], by simp [← List.flatMap_def], fun y hy => ?_⟩
    rcases List.mem_map.mp hy with ⟨x, hx, rfl⟩
    exact ⟨x, rfl, h x hx⟩

private theorem words_nil : words [] = 1 := rfl

private theorem words_cons (item : Item) : words (item :: items) = item.language * words items := by
  rw [words, List.map_cons, List.prod_cons]
  rfl

/-- A prefix of the text is a word, and `here` holds of what follows it. -/
def Prefixed (l : Language UInt8) (here : List UInt8 → Prop) (text : List UInt8) : Prop :=
  ∃ w rest, w ++ rest = text ∧ w ∈ l ∧ here rest

private theorem prefixed_mul {l m : Language UInt8} {here : List UInt8 → Prop} :
    Prefixed (l * m) here text ↔ Prefixed l (Prefixed m here) text := by
  constructor
  · rintro ⟨w, rest, rfl, hw, hhere⟩
    rcases Language.mem_mul.mp hw with ⟨u, hu, v, hv, rfl⟩
    exact ⟨u, v ++ rest, (List.append_assoc u v rest).symm, hu, v, rest, rfl, hv, hhere⟩
  · rintro ⟨u, rest', rfl, hu, v, rest, rfl, hv, hhere⟩
    exact ⟨u ++ v, rest, List.append_assoc u v rest, Language.mem_mul.mpr ⟨u, hu, v, hv, rfl⟩, hhere⟩

private theorem prefixed_one {here : List UInt8 → Prop} : Prefixed 1 here text ↔ here text := by
  constructor
  · rintro ⟨w, rest, rfl, hw, hhere⟩
    rw [Language.mem_one] at hw
    rw [hw]
    exact hhere
  · exact fun hhere => ⟨[], text, rfl, Language.nil_mem_one, hhere⟩

private theorem prefixed_letter {here : List UInt8 → Prop} :
    Prefixed (letter c) here text ↔ ∃ x rest, text = x :: rest ∧ accepts c x = true ∧ here rest := by
  constructor
  · rintro ⟨w, rest, rfl, ⟨x, rfl, hx⟩, hhere⟩
    exact ⟨x, rest, rfl, hx, hhere⟩
  · rintro ⟨x, rest, rfl, hx, hhere⟩
    exact ⟨[x], rest, rfl, ⟨x, rfl, hx⟩, hhere⟩

private theorem matchone_iff {here : List UInt8 → Bool} :
    matchone here c text = true ↔ Prefixed (letter c) (fun rest => here rest = true) text := by
  rw [prefixed_letter]
  cases text with
  | nil => simp [matchone]
  | cons x text =>
    rw [matchone, Bool.and_eq_true]
    constructor
    · exact fun h => ⟨x, text, rfl, h.1, h.2⟩
    · rintro ⟨y, rest, heq, hy, hrest⟩
      rw [List.cons.injEq] at heq
      rw [heq.1, heq.2]
      exact ⟨hy, hrest⟩

private theorem matchstar_iff {here : List UInt8 → Bool} :
    matchstar here c text = true ↔ Prefixed (letter c)∗ (fun rest => here rest = true) text := by
  induction text with
  | nil =>
    rw [matchstar]
    constructor
    · exact fun h => ⟨[], [], rfl, Language.nil_mem_kstar _, h⟩
    · rintro ⟨w, rest, heq, -, h⟩
      rw [(List.append_eq_nil_iff.mp heq).2] at h
      exact h
  | cons x text ih =>
    rw [matchstar, Bool.or_eq_true, Bool.and_eq_true, ih]
    constructor
    · rintro (h | ⟨hx, w, rest, rfl, hw, h⟩)
      · exact ⟨[], x :: text, rfl, Language.nil_mem_kstar _, h⟩
      · refine ⟨x :: w, rest, rfl, mem_letter_star.mpr fun y hy => ?_, h⟩
        rcases List.mem_cons.mp hy with rfl | hy
        · exact hx
        · exact mem_letter_star.mp hw y hy
    · rintro ⟨w, rest, heq, hw, h⟩
      cases w with
      | nil =>
        left
        rw [← heq]
        exact h
      | cons y w =>
        rw [List.cons_append, List.cons.injEq] at heq
        rcases heq with ⟨rfl, rfl⟩
        have hall := mem_letter_star.mp hw
        exact Or.inr ⟨hall y List.mem_cons_self, w, rest, rfl,
          mem_letter_star.mpr fun z hz => hall z (List.mem_cons_of_mem y hz), h⟩

/-- The end of the text, where a pattern asks for it. -/
def AtEnd (ends : Bool) (rest : List UInt8) : Prop := ends = true → rest = []

private theorem matchhere_iff : matchhere re text = true ↔
    Prefixed (words (parse re).1) (AtEnd (parse re).2) text := by
  induction re using parse.induct generalizing text with
  | case1 =>
    rw [matchhere, parse, words_nil, prefixed_one]
    exact ⟨fun _ hfalse => by contradiction, fun _ => rfl⟩
  | case2 =>
    rw [matchhere, if_pos rfl, parse, if_pos rfl, words_nil, prefixed_one, List.isEmpty_iff]
    exact ⟨fun h _ => h, fun h => h rfl⟩
  | case3 c hdollar =>
    have hend : (fun _ => true = true) = AtEnd false := by
      funext rest
      simp [AtEnd]
    rw [matchhere, if_neg hdollar, parse, if_neg hdollar, words_cons, words_nil, mul_one, matchone_iff,
      hend]
    rfl
  | case4 c re ih =>
    rw [matchhere, if_pos rfl, parse, if_pos rfl, words_cons, prefixed_mul, matchstar_iff]
    simp only [ih]
    rfl
  | case5 c d re hstar ih =>
    rw [matchhere, if_neg hstar, parse, if_neg hstar, words_cons, prefixed_mul, matchone_iff]
    simp only [ih]
    rfl

private theorem search_iff : search re text = true ↔ ∃ pre rest, pre ++ rest = text ∧
    matchhere re rest = true := by
  induction text with
  | nil =>
    rw [search]
    constructor
    · exact fun h => ⟨[], [], rfl, h⟩
    · rintro ⟨pre, rest, heq, h⟩
      rw [(List.append_eq_nil_iff.mp heq).2] at h
      exact h
  | cons x text ih =>
    rw [search, Bool.or_eq_true, ih]
    constructor
    · rintro (h | ⟨pre, rest, rfl, h⟩)
      · exact ⟨[], x :: text, rfl, h⟩
      · exact ⟨x :: pre, rest, rfl, h⟩
    · rintro ⟨pre, rest, heq, h⟩
      cases pre with
      | nil =>
        left
        rw [← heq]
        exact h
      | cons y pre =>
        rw [List.cons_append, List.cons.injEq] at heq
        exact Or.inr ⟨pre, rest, heq.2, h⟩

/-- The pattern without the mark for the beginning. -/
def body (re : List UInt8) : List UInt8 := if re.head? = some caret then re.tail else re

/-- `match` returns 1 exactly when a part of the text is a word of the pattern, with nothing before it
where the pattern begins with `^` and nothing after it where it ends with `$`. -/
theorem match_iff (re text : List UInt8) : match_ re text = true ↔
    ∃ pre w post, pre ++ w ++ post = text ∧ w ∈ words (parse (body re)).1 ∧
      (re.head? = some caret → pre = []) ∧ ((parse (body re)).2 = true → post = []) := by
  unfold match_ body
  split
  · next hcaret =>
    rw [matchhere_iff]
    constructor
    · rintro ⟨w, post, heq, hw, hend⟩
      exact ⟨[], w, post, heq, hw, fun _ => rfl, hend⟩
    · rintro ⟨pre, w, post, heq, hw, hbegin, hend⟩
      rw [hbegin hcaret, List.nil_append] at heq
      exact ⟨w, post, heq, hw, hend⟩
  · next hcaret =>
    rw [search_iff]
    constructor
    · rintro ⟨pre, rest, rfl, h⟩
      rcases matchhere_iff.mp h with ⟨w, post, rfl, hw, hend⟩
      exact ⟨pre, w, post, List.append_assoc pre w post, hw, fun h => absurd h hcaret, hend⟩
    · rintro ⟨pre, w, post, rfl, hw, -, hend⟩
      exact ⟨pre, w ++ post, (List.append_assoc pre w post).symm,
        matchhere_iff.mpr ⟨w, post, rfl, hw, hend⟩⟩

end Language

end OsSessional.Userland
