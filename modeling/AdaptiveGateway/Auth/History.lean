/-
What the answers of the past say about a refresh token.

A call is on record with its request, its answer, and the time and the users it
met; nothing here speaks of the database.  The records say to whom a token was
issued and until when, and which tokens are no longer good: those that were
exchanged, those that were logged out, and those whose user has since presented a
token that was no good any more.

A history holds the latest record first.
-/
import AdaptiveGateway.Auth.Routes

namespace AdaptiveGateway
namespace Auth

open Codec

/-- The refresh token in an answer. -/
def given : Except Fault Reply → Option Text
  | .ok (.tokens t) => some t.refreshToken
  | _ => none

structure Record where
  request : Request
  reply : Except Fault Reply
  now : Time
  users : List User

abbrev History := List Record

/-- The user that a request is about, if `owner` knows the tokens. -/
def Request.party (owner : Text → Option UserId) (users : List User) : Request → Option UserId
  | .login email _ _ => (users.find? fun u => decide (u.email = email)).map User.id
  | .refresh x => owner x
  | .logout x => owner x

variable (svc : Service)

/-- The user to whom the token was issued, and when it expires. -/
def issued : History → Text → Option (UserId × Time)
  | [], _ => none
  | r :: h, x =>
    if given r.reply = some x then
      (r.request.party (fun y => (issued h y).map Prod.fst) r.users).map fun u =>
        (u, r.now + seconds (svc.settings.refreshTokenTtlDays * 86400))
    else issued h x

def holder (h : History) (x : Text) : Option UserId := (issued svc h x).map Prod.fst

/-- The token is not good any more, whatever the time. -/
inductive Revoked : History → Text → Prop where
  /-- It has been exchanged for another. -/
  | used {r : Record} {h : History} {x : Text} :
      r.request = .refresh x → (given r.reply).isSome → Revoked (r :: h) x
  | loggedOut {r : Record} {h : History} {x : Text} :
      r.request = .logout x → (issued svc h x).isSome → Revoked (r :: h) x
  /-- Its user's tokens were given up together, because one of them was presented
  that was revoked already. -/
  | family {r : Record} {h : History} {x y : Text} {u : UserId} :
      r.request = .refresh y → Revoked h y → holder svc h y = some u → holder svc h x = some u →
      Revoked (r :: h) x
  | before {r : Record} {h : History} {x : Text} : Revoked h x → Revoked (r :: h) x

/-- A refresh with the token was answered with a new one. -/
def Refreshed (h : History) (x : Text) : Prop :=
  ∃ r ∈ h, r.request = .refresh x ∧ (given r.reply).isSome

/-- The token was logged out after it had been issued. -/
def LoggedOut (h : History) (x : Text) : Prop :=
  ∃ later r earlier, h = later ++ r :: earlier ∧ r.request = .logout x ∧
    (issued svc earlier x).isSome

/-- After the token had been issued, a refresh presented a token of the same user
that was revoked at that moment. -/
def FamilyRevoked (h : History) (x : Text) : Prop :=
  ∃ later r earlier y u, h = later ++ r :: earlier ∧ r.request = .refresh y ∧
    Revoked svc earlier y ∧ holder svc earlier y = some u ∧ holder svc earlier x = some u

def active (users : List User) (u : UserId) : Prop :=
  ∃ user, users.find? (fun v => decide (v.id = u)) = some user ∧ user.isActive = true

/-- The token may be exchanged at the time `now`. -/
def Valid (h : History) (now : Time) (users : List User) (x : Text) : Prop :=
  ∃ u expiry, issued svc h x = some (u, expiry) ∧ ¬expiry < now ∧ active users u ∧
    ¬Refreshed h x ∧ ¬LoggedOut svc h x ∧ ¬FamilyRevoked svc h x

variable {svc} {h : History} {r : Record} {x : Text}

theorem Revoked.of_append {later : History} (hx : Revoked svc h x) :
    Revoked svc (later ++ h) x := by
  induction later with
  | nil => exact hx
  | cons r later ih => exact .before ih

/-- The three ways to be revoked, each with the moment at which it happened. -/
theorem revoked_iff : Revoked svc h x ↔
    Refreshed h x ∨ LoggedOut svc h x ∨ FamilyRevoked svc h x := by
  constructor
  · intro hx
    induction hx with
    | @used r h x hr hg => exact Or.inl ⟨r, List.mem_cons_self, hr, hg⟩
    | @loggedOut r h x hr hi => exact Or.inr (Or.inl ⟨[], r, h, rfl, hr, hi⟩)
    | @family r h x y u hr hy hyu hxu _ => exact Or.inr (Or.inr ⟨[], r, h, y, u, rfl, hr, hy, hyu, hxu⟩)
    | @before r h x _ ih =>
      rcases ih with ⟨r', hr', hr, hg⟩ | ⟨later, r', earlier, rfl, hr, hi⟩ |
        ⟨later, r', earlier, y, u, rfl, hrest⟩
      · exact Or.inl ⟨r', List.mem_cons_of_mem r hr', hr, hg⟩
      · exact Or.inr (Or.inl ⟨r :: later, r', earlier, rfl, hr, hi⟩)
      · exact Or.inr (Or.inr ⟨r :: later, r', earlier, y, u, rfl, hrest⟩)
  · rintro (⟨r, hmem, hr, hg⟩ | ⟨later, r, earlier, rfl, hr, hi⟩ |
      ⟨later, r, earlier, y, u, rfl, hr, hy, hyu, hxu⟩)
    · obtain ⟨later, earlier, rfl⟩ := List.append_of_mem hmem
      exact (Revoked.used hr hg).of_append
    · exact (Revoked.loggedOut hr hi).of_append
    · exact (Revoked.family hr hy hyu hxu).of_append

theorem valid_iff {now : Time} {users : List User} : Valid svc h now users x ↔
    ∃ u expiry, issued svc h x = some (u, expiry) ∧ ¬expiry < now ∧ active users u ∧
      ¬Revoked svc h x := by
  simp only [Valid, revoked_iff, not_or]

/-- A record that does not give the token away leaves open to whom it belongs. -/
theorem issued_cons_of_ne (hx : given r.reply ≠ some x) :
    issued svc (r :: h) x = issued svc h x := if_neg hx

/-- What a record adds to the revoked tokens. -/
theorem revoked_cons : Revoked svc (r :: h) x ↔
    Revoked svc h x ∨ (r.request = .refresh x ∧ (given r.reply).isSome) ∨
      (r.request = .logout x ∧ (issued svc h x).isSome) ∨
      ∃ y u, r.request = .refresh y ∧ Revoked svc h y ∧ holder svc h y = some u ∧
        holder svc h x = some u := by
  constructor
  · intro hx
    cases hx with
    | used hr hg => exact Or.inr (Or.inl ⟨hr, hg⟩)
    | loggedOut hr hi => exact Or.inr (Or.inr (Or.inl ⟨hr, hi⟩))
    | family hr hy hyu hxu => exact Or.inr (Or.inr (Or.inr ⟨_, _, hr, hy, hyu, hxu⟩))
    | before hx => exact Or.inl hx
  · rintro (hx | ⟨hr, hg⟩ | ⟨hr, hi⟩ | ⟨y, u, hr, hy, hyu, hxu⟩)
    · exact .before hx
    · exact .used hr hg
    · exact .loggedOut hr hi
    · exact .family hr hy hyu hxu

end Auth
end AdaptiveGateway
