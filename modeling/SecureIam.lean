import SecureIam.Lib.Program
import SecureIam.Lib.Interleaving
import SecureIam.Lib.Protocol
import SecureIam.Lib.Discipline
import SecureIam.Lib.Sequential
import SecureIam.Lib.Paging
import SecureIam.Db.Tables
import SecureIam.Db.Schema
import SecureIam.Db.Migrations
import SecureIam.Tokens.Races
import SecureIam.Tokens.Answers
import SecureIam.Access.Permissions
import SecureIam.Access.Duplicates
import SecureIam.Access.Revocation
import SecureIam.Access.Journal
import SecureIam.Access.Scopes
import SecureIam.Access.Downgrade
import SecureIam.Access.Tenants
import SecureIam.Audit.Growth
import SecureIam.Accounts.Rejections
import SecureIam.Accounts.Durability
import SecureIam.Accounts.Audited
import SecureIam.Accounts.Continuity
import SecureIam.Accounts.Reuse
import SecureIam.Accounts.Registration
import SecureIam.Accounts.AccessTokens
import SecureIam.Access.ReadPaths
import SecureIam.Audit.Balance
import SecureIam.Access.Policy
import SecureIam.Api.Escalation
import SecureIam.Api.History
import SecureIam.Accounts.Causes
import SecureIam.Api.Delegation
import SecureIam.Db.Seeds
import SecureIam.Api.Installation
import SecureIam.Access.Recorded
import SecureIam.Access.Truthful
import SecureIam.Api.Decisions
import SecureIam.Api.Recorded
import SecureIam.Api.Memberships
import SecureIam.Access.Members
