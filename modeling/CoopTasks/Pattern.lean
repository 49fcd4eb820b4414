import CoopTasks.Value

/-!
# Patterns

What a TAKE waits for: notifications of the bus, chosen by tag or by a named predicate, or the next
value of a channel. A channel pattern matches nothing on the bus. Predicates are compared by name.
-/

namespace CoopTasks

/-- A named predicate on notifications. -/
structure Matcher where
  name : String
  check : Notification → Bool

inductive Pattern where
  | tag (tag : String)
  | anyOf (tags : List String)
  | wildcard
  | matching (matcher : Matcher)
  | channel (id : ChannelId)

namespace Pattern

/-- Whether a notification on the bus satisfies the pattern. -/
def accepts : Pattern → Notification → Bool
  | .tag t, n => n.tag == t
  | .anyOf ts, n => ts.contains n.tag
  | .wildcard, _ => true
  | .matching m, n => m.check n
  | .channel _, _ => false

/-- What it is to satisfy a pattern: to have the tag or one of the tags, or to pass the predicate.
Nothing satisfies a channel pattern. -/
inductive Matches (n : Notification) : Pattern → Prop where
  | tag : Matches n (.tag n.tag)
  | anyOf {tags : List String} : n.tag ∈ tags → Matches n (.anyOf tags)
  | wildcard : Matches n .wildcard
  | matching {matcher : Matcher} : matcher.check n = true → Matches n (.matching matcher)

theorem accepts_iff {p : Pattern} {n : Notification} : p.accepts n = true ↔ Matches n p := by
  constructor
  · intro h
    cases p with
    | tag t =>
      obtain rfl : n.tag = t := by simpa [accepts] using h
      exact .tag
    | anyOf tags => exact .anyOf (by simpa [accepts] using h)
    | wildcard => exact .wildcard
    | matching matcher => exact .matching h
    | channel id => cases h
  · intro h
    cases h with
    | tag => simp [accepts]
    | anyOf hmem => simpa [accepts] using hmem
    | wildcard => rfl
    | matching hcheck => exact hcheck

def render : Pattern → String
  | .tag t => t
  | .anyOf ts => "[" ++ ", ".intercalate ts ++ "]"
  | .wildcard => "*"
  | .matching m => "<" ++ m.name ++ ">"
  | .channel id => toString id

instance : ToString Pattern := ⟨render⟩

def same : Pattern → Pattern → Bool
  | .tag a, .tag b => a == b
  | .anyOf as, .anyOf bs => as == bs
  | .wildcard, .wildcard => true
  | .matching m, .matching n => m.name == n.name
  | .channel a, .channel b => a == b
  | _, _ => false

@[simp] theorem accepts_channel (id : ChannelId) (n : Notification) :
    (Pattern.channel id).accepts n = false := rfl

end Pattern

end CoopTasks
